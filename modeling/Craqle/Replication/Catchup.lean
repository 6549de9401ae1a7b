import Craqle.Replication.Paging

/-! # Reading a topic past a cursor

Reconciliation reads a topic in pages of records that it has not consumed. `topic_records_since`
merges the streams of the topic's actors: it holds the next operation of each actor, takes the one
that sorts first by generation and actor, and puts the actor's following operation in its place. A
page ends after a number of records or bytes. The cursor keeps a sequence for each actor, and the
frontier that the pages of one pass are read up to.

Irokle's guarantees are fields of `TopicBranch`. A branch is all operations that ever come to it;
what a node has of it is a clock, so the sequences of an actor are contiguous. A page is a leading
part of what is pending, in the order of generations (`topicRecordsSince_spec`).
-/

namespace Craqle

open List VectorClock
open Std (ExtTreeMap)

/-! ## Clocks as sets of positions -/

namespace VectorClock

/-- The last sequence of an actor; zero is none. -/
def last (c : VectorClock) (a : ActorId) : Nat := c.entries[a]?.getD 0

def upTo (c : VectorClock) : Set Dot := {d | 0 < d.counter ∧ d.counter ≤ c.last d.actor}

@[simp] theorem last_new (a : ActorId) : new.last a = 0 := by
  simp [last, new]

theorem last_advance (c : VectorClock) (a b : ActorId) (n : Nat) :
    (c.advance a n).last b = if a = b then max (c.last a) n else c.last b := by
  unfold last
  rw [entries_advance]
  split <;> rfl

/-- Consuming the next operation of an actor. -/
theorem upTo_advance {c : VectorClock} {d : Dot} (h : d.counter = c.last d.actor + 1) :
    (c.advance d.actor d.counter).upTo = insert d c.upTo := by
  ext e
  obtain ⟨a, n⟩ := d
  obtain ⟨b, m⟩ := e
  simp only [upTo, Set.mem_ofPred_eq, Set.mem_insert_iff, Dot.mk.injEq, last_advance] at h ⊢
  by_cases hab : a = b
  · subst hab
    rw [if_pos rfl]
    simp only [true_and]
    omega
  · simp [hab, Ne.symm hab]

theorem upTo_subset_iff {c c' : VectorClock} : c.upTo ⊆ c'.upTo ↔ ∀ a, c.last a ≤ c'.last a := by
  constructor
  · intro h a
    by_cases hzero : c.last a = 0
    · omega
    · have hmem : (⟨a, c.last a⟩ : Dot) ∈ c.upTo := ⟨Nat.pos_of_ne_zero hzero, le_rfl⟩
      exact (h hmem).2
  · rintro h ⟨a, n⟩ ⟨hpos, hle⟩
    exact ⟨hpos, hle.trans (h a)⟩

end VectorClock

/-! ## A branch of a topic -/

/-- The operations of one branch of a topic by position, those included that are still to come.
Irokle dates an operation after the ones it depends on, which include its actor's previous one. -/
structure TopicBranch where
  epoch : Nat
  genesis : OpId
  id : Dot → OpId
  op : Dot → TopicOp
  parents : Dot → List Dot
  named : ∀ d, (op d).parents = (parents d).map id
  positioned : ∀ d, (op d).opMeta.actor = d.actor ∧ (op d).opMeta.actorSeq = d.counter
  older : ∀ d, ∀ e ∈ parents d, (op e).generation < (op d).generation
  previous : ∀ d : Dot, 1 < d.counter → ⟨d.actor, d.counter - 1⟩ ∈ parents d

namespace TopicBranch

variable (b : TopicBranch)

def DependsOn (d e : Dot) : Prop := e ∈ b.parents d

/-- A frontier that has, with each operation, what the operation depends on. -/
def Closed (c : VectorClock) : Prop := ∀ d ∈ c.upTo, ∀ e, b.DependsOn d e → e ∈ c.upTo

def key (d : Dot) : ℕ ×ₗ ℕ ×ₗ ℕ :=
  toLex ((b.op d).generation, toLex (d.actor.toNat, d.counter))

def record (d : Dot) : TopicRecord :=
  match (b.op d).payload with
  | .event event => .event ⟨b.id d, (b.op d).opMeta, event⟩
  | .otherType =>
    .rejected (b.id d) (b.op d).opMeta .unsupported
      "unsupported graph-event version or type".toList
  | .malformed =>
    .rejected (b.id d) (b.op d).opMeta .corruptAuthoritativeData
      "malformed or poison graph-event payload".toList
  | .control => .control (b.op d).opMeta

end TopicBranch

def TopicRecord.dot (r : TopicRecord) : Dot := ⟨r.opMeta.actor, r.opMeta.actorSeq⟩

/-! ## `topic_records_since` -/

/-- The next operation of an actor. -/
structure RecordCandidate where
  generation : Nat
  actor : ActorId
  sequence : Nat
  id : OpId
  deriving DecidableEq

def RecordCandidate.key (c : RecordCandidate) : ℕ ×ₗ ℕ ×ₗ ℕ ×ₗ ℕ :=
  toLex (c.generation, toLex (c.actor.toNat, toLex (c.sequence, c.id.toNat)))

inductive CatchupError where
  | branchChanged
  | progressExceedsTarget (actor : ActorId)
  | positionMissing (actor : ActorId)
  | syncCapacity (id : OpId) (remaining : Nat)
  deriving DecidableEq

structure PageLimits where
  records : Nat
  bytes : Nat

def PageLimits.topic : PageLimits := ⟨1024, 8 * 1024 * 1024⟩

/-- What is stored of the history that was consumed. -/
structure TopicCursor where
  epoch : Nat
  genesis : OpId
  clock : VectorClock
  target : Option VectorClock
  deriving DecidableEq

structure TopicCatchup where
  records : List TopicRecord
  cursor : TopicCursor
  more : Bool
  deriving DecidableEq

namespace TopicBranch

variable (b : TopicBranch)

def candidate (d : Dot) : RecordCandidate := ⟨(b.op d).generation, d.actor, d.counter, b.id d⟩

/-- The first operation of an actor after a sequence, of those up to the frontier. -/
def nextRecord (frontier : VectorClock) (actor : ActorId) (after : Nat) : Option RecordCandidate :=
  if after < frontier.last actor then some (b.candidate ⟨actor, after + 1⟩) else none

/-- The next operation of an actor up to the target; one that is missing expires the cursor. -/
def candidateAfter (frontier target : VectorClock) (actor : ActorId) (after : Nat) :
    Except CatchupError (List RecordCandidate) :=
  if target.last actor ≤ after then .ok []
  else
    match b.nextRecord frontier actor after with
    | none => .error (.positionMissing actor)
    | some c =>
      if target.last actor < c.sequence then .error (.positionMissing actor) else .ok [c]

/-- The next operations of all actors. -/
def startCandidates (frontier clock target : VectorClock) :
    List ActorId → Except CatchupError (List RecordCandidate)
  | [] => .ok []
  | actor :: actors =>
    match b.candidateAfter frontier target actor (clock.last actor) with
    | .error e => .error e
    | .ok candidates =>
      (startCandidates frontier clock target actors).map fun rest => candidates ++ rest

/-- Take records until the page is full. A record that does not fit ends the page, unless it is
the first one. -/
def fillPage (limits : PageLimits) (frontier target : VectorClock) :
    (room used : Nat) → (first : Bool) → List RecordCandidate →
      Except CatchupError (List TopicRecord × List RecordCandidate)
  | 0, _, _, candidates => .ok ([], candidates)
  | room + 1, used, first, candidates =>
    match candidates.argmin RecordCandidate.key with
    | none => .ok ([], candidates)
    | some c =>
      let d : Dot := ⟨c.actor, c.sequence⟩
      if limits.bytes - used < (b.op d).bytes then
        if first then .error (.syncCapacity c.id (limits.bytes - used)) else .ok ([], candidates)
      else
        match b.candidateAfter frontier target c.actor c.sequence with
        | .error e => .error e
        | .ok following =>
          (fillPage limits frontier target room (used + (b.op d).bytes) false
            (following ++ candidates.erase c)).map fun page => (b.record d :: page.1, page.2)

def topicRecordsSince (limits : PageLimits) (frontier : VectorClock) (stored : Option TopicCursor) :
    Except CatchupError TopicCatchup :=
  let state := stored.getD ⟨b.epoch, b.genesis, .new, none⟩
  if state.epoch ≠ b.epoch ∨ state.genesis ≠ b.genesis then .error .branchChanged
  else
    let target := state.target.getD frontier
    match state.clock.entries.keys.find? fun a => target.last a < state.clock.last a with
    | some a => .error (.progressExceedsTarget a)
    | none =>
      match b.startCandidates frontier state.clock target target.entries.keys with
      | .error e => .error e
      | .ok candidates =>
        (b.fillPage limits frontier target limits.records 0 true candidates).map fun page =>
          let more := !page.2.isEmpty
          ⟨page.1, { state with target := if more then some target else none }, more⟩

end TopicBranch

/-! ## The order of a branch -/

namespace TopicBranch

variable {b : TopicBranch}

@[simp] theorem dot_record (d : Dot) : (b.record d).dot = d := by
  obtain ⟨hactor, hseq⟩ := b.positioned d
  have hmeta : (b.record d).opMeta = (b.op d).opMeta := by
    unfold record
    cases (b.op d).payload <;> rfl
  unfold TopicRecord.dot
  rw [hmeta, hactor, hseq]

/-- Generations rise along the operations of an actor. -/
theorem generation_lt (a : ActorId) {m n : Nat} (hm : 0 < m) (hmn : m < n) :
    (b.op ⟨a, m⟩).generation < (b.op ⟨a, n⟩).generation := by
  induction n with
  | zero => omega
  | succ n ih =>
    have hstep : (b.op ⟨a, n⟩).generation < (b.op ⟨a, n + 1⟩).generation :=
      b.older _ _ (b.previous ⟨a, n + 1⟩ (by show 1 < n + 1; omega))
    rcases Nat.lt_succ_iff_lt_or_eq.mp hmn with hlt | rfl
    · exact (ih hlt).trans hstep
    · exact hstep

theorem key_lt_of_generation_lt {d e : Dot} (h : (b.op d).generation < (b.op e).generation) :
    b.key d < b.key e :=
  Prod.Lex.toLex_lt_toLex.mpr (.inl h)

theorem key_lt_of_dependsOn {d e : Dot} (h : b.DependsOn d e) : b.key e < b.key d :=
  key_lt_of_generation_lt (b.older d e h)

theorem key_injective : Function.Injective b.key := by
  rintro ⟨a, m⟩ ⟨a', n⟩ h
  have hactor : a.toNat = a'.toNat := congrArg (fun k => (ofLex (ofLex k).2).1) h
  have hcounter : m = n := congrArg (fun k => (ofLex (ofLex k).2).2) h
  rw [BitVec.eq_of_toNat_eq hactor, hcounter]

/-- Earlier operations of an actor sort first. -/
theorem key_le_of_counter_le (a : ActorId) {m n : Nat} (hm : 0 < m) (hmn : m ≤ n) :
    b.key ⟨a, m⟩ ≤ b.key ⟨a, n⟩ := by
  rcases Nat.lt_or_eq_of_le hmn with hlt | rfl
  · exact (key_lt_of_generation_lt (generation_lt a hm hlt)).le
  · exact le_rfl

end TopicBranch

/-! ## A page is a leading part of what is pending -/

/-- What lies between a clock and a target. -/
def pending (clock target : VectorClock) : Set Dot := target.upTo \ clock.upTo

theorem mem_pending {clock target : VectorClock} {d : Dot} :
    d ∈ pending clock target ↔ clock.last d.actor < d.counter ∧ d.counter ≤ target.last d.actor := by
  simp only [pending, upTo, Set.mem_sdiff, Set.mem_ofPred_eq]
  omega

def VectorClock.consume (clock : VectorClock) (ds : List Dot) : VectorClock :=
  ds.foldl (fun c d => c.advance d.actor d.counter) clock

section Page

variable {b : TopicBranch} {limits : PageLimits} {frontier clock target : VectorClock}

theorem counter_eq_of_leading {d : Dot} {ds : List Dot}
    (h : Leading b.key (pending clock target) (d :: ds)) : d.counter = clock.last d.actor + 1 := by
  obtain ⟨hlow, hhigh⟩ := mem_pending.mp (h.mem d mem_cons_self)
  by_contra hne
  have hnext : (⟨d.actor, clock.last d.actor + 1⟩ : Dot) ∈ pending clock target :=
    mem_pending.mpr ⟨Nat.lt_succ_self _, by show _ + 1 ≤ target.last d.actor; omega⟩
  have hlt := h.head_lt hnext fun heq => hne (congrArg Dot.counter heq).symm
  exact hlt.not_ge (TopicBranch.key_le_of_counter_le d.actor (Nat.succ_pos _) (by omega))

theorem consume_of_leading {ds : List Dot} (h : Leading b.key (pending clock target) ds) :
    (clock.consume ds).upTo = clock.upTo ∪ {d | d ∈ ds} ∧
      pending (clock.consume ds) target = pending clock target \ {d | d ∈ ds} := by
  induction ds generalizing clock with
  | nil => simp [consume]
  | cons d ds ih =>
    have hupTo := upTo_advance (counter_eq_of_leading h)
    have hpending : pending (clock.advance d.actor d.counter) target =
        pending clock target \ {x | x ∈ [d]} := by
      unfold pending
      rw [hupTo]
      ext e
      simp
      tauto
    have hrest : Leading b.key (pending (clock.advance d.actor d.counter) target) ds := by
      rw [hpending]
      have hsplit : Leading b.key (pending clock target) ([d] ++ ds) := h
      exact hsplit.right
    obtain ⟨hupTo', hpending'⟩ := ih hrest
    constructor
    · show ((clock.advance d.actor d.counter).consume ds).upTo = _
      rw [hupTo', hupTo]
      ext e
      simp
      tauto
    · show pending ((clock.advance d.actor d.counter).consume ds) target = _
      rw [hpending', hpending]
      ext e
      simp
      tauto

/-- The candidates are the next operations of the actors that have one up to the target. -/
structure Heads (b : TopicBranch) (clock target : VectorClock) (cs : List RecordCandidate) :
    Prop where
  mem : ∀ c, c ∈ cs ↔ clock.last c.actor < target.last c.actor ∧
    c = b.candidate ⟨c.actor, clock.last c.actor + 1⟩
  nodup : cs.Nodup

variable {cs : List RecordCandidate}

/-- The next operation of an actor is a candidate if it is not after the target. -/
theorem mem_candidateAfter {actor : ActorId} {after : Nat}
    (h : b.candidateAfter frontier target actor after = .ok cs) :
    (∀ c, c ∈ cs ↔ after < target.last actor ∧ c = b.candidate ⟨actor, after + 1⟩) ∧
      cs.Nodup := by
  unfold TopicBranch.candidateAfter TopicBranch.nextRecord at h
  by_cases hdone : target.last actor ≤ after
  · rw [if_pos hdone] at h
    cases h
    simp [Nat.not_lt.mpr hdone]
  rw [if_neg hdone] at h
  by_cases hpresent : after < frontier.last actor
  · simp only [if_pos hpresent] at h
    split at h
    · cases h
    · cases h
      simp [Nat.not_le.mp hdone]
  · simp [hpresent] at h

theorem exists_candidateAfter (actor : ActorId) (after : Nat)
    (htarget : target.last actor ≤ frontier.last actor) :
    ∃ cs, b.candidateAfter frontier target actor after = .ok cs := by
  unfold TopicBranch.candidateAfter TopicBranch.nextRecord
  by_cases hdone : target.last actor ≤ after
  · exact ⟨[], if_pos hdone⟩
  have hpresent : after < frontier.last actor := by omega
  have hnext : ¬ target.last actor < (b.candidate ⟨actor, after + 1⟩).sequence := by
    show ¬ target.last actor < after + 1
    omega
  rw [if_neg hdone]
  simp only [if_pos hpresent, if_neg hnext]
  exact ⟨_, rfl⟩

theorem startCandidates_mem {actors : List ActorId}
    (h : b.startCandidates frontier clock target actors = .ok cs) (hnodup : actors.Nodup) :
    (∀ c, c ∈ cs ↔ c.actor ∈ actors ∧ clock.last c.actor < target.last c.actor ∧
      c = b.candidate ⟨c.actor, clock.last c.actor + 1⟩) ∧ cs.Nodup := by
  induction actors generalizing cs with
  | nil =>
    cases h
    simp
  | cons actor actors ih =>
    unfold TopicBranch.startCandidates at h
    obtain ⟨hnot, hnodup⟩ := nodup_cons.mp hnodup
    cases hfirst : b.candidateAfter frontier target actor (clock.last actor) with
    | error e => simp [hfirst] at h
    | ok candidates =>
      simp only [hfirst] at h
      obtain ⟨rest, hrest, rfl⟩ := Fallible.map_eq_ok.mp h
      obtain ⟨hmem, hrestNodup⟩ := ih hrest hnodup
      obtain ⟨hmemFirst, hfirstNodup⟩ := mem_candidateAfter hfirst
      refine ⟨fun c => ?_, nodup_append'.mpr ⟨hfirstNodup, hrestNodup, ?_⟩⟩
      · rw [mem_append, hmem, hmemFirst, mem_cons]
        constructor
        · rintro (⟨hlt, rfl⟩ | ⟨hactor, hrest⟩)
          · exact ⟨.inl rfl, hlt, rfl⟩
          · exact ⟨.inr hactor, hrest⟩
        · rintro ⟨rfl | hactor, hlt, hc⟩
          · exact .inl ⟨hlt, hc⟩
          · exact .inr ⟨hactor, hlt, hc⟩
      · intro c hc hin
        obtain ⟨_, rfl⟩ := (hmemFirst c).mp hc
        exact hnot ((hmem _).mp hin).1

theorem exists_startCandidates (actors : List ActorId)
    (htarget : ∀ a, target.last a ≤ frontier.last a) :
    ∃ cs, b.startCandidates frontier clock target actors = .ok cs := by
  induction actors with
  | nil => exact ⟨[], rfl⟩
  | cons actor actors ih =>
    obtain ⟨candidates, hfirst⟩ :=
      @exists_candidateAfter b frontier target actor (clock.last actor) (htarget actor)
    obtain ⟨rest, hrest⟩ := ih
    exact ⟨candidates ++ rest, by simp [TopicBranch.startCandidates, hfirst, hrest, Except.map]⟩

theorem heads_of_startCandidates
    (h : b.startCandidates frontier clock target target.entries.keys = .ok cs) :
    Heads b clock target cs := by
  have hnodup : target.entries.keys.Nodup := ExtTreeMap.nodup_keys
  obtain ⟨hmem, hcs⟩ := startCandidates_mem h hnodup
  refine ⟨fun c => ?_, hcs⟩
  rw [hmem, and_iff_right_iff_imp]
  rintro ⟨hlt, _⟩
  -- an actor without an entry has no operations up to the target
  rw [ExtTreeMap.mem_keys, ExtTreeMap.mem_iff_isSome_getElem?]
  cases hentry : target.entries[c.actor]? with
  | some n => rfl
  | none => simp [last, hentry] at hlt

namespace Heads

variable {following : List RecordCandidate} {c : RecordCandidate}

variable (h : Heads b clock target cs)
include h

theorem sequence_eq (hc : c ∈ cs) :
    c.sequence = clock.last c.actor + 1 := by
  obtain ⟨_, heq⟩ := (h.mem c).mp hc
  exact congrArg RecordCandidate.sequence heq

/-- The least candidate is the first of all that is pending. -/
theorem leading_singleton (hc : c ∈ cs) (hmin : ∀ c' ∈ cs, c.key ≤ c'.key) :
    Leading b.key (pending clock target) [⟨c.actor, c.sequence⟩] := by
  obtain ⟨hlt, heq⟩ := (h.mem c).mp hc
  have hsequence := h.sequence_eq hc
  refine Leading.singleton (mem_pending.mpr ⟨?_, ?_⟩) fun d hd hne => ?_
  · show clock.last c.actor < c.sequence
    omega
  · show c.sequence ≤ target.last c.actor
    omega
  · obtain ⟨hlow, hhigh⟩ := mem_pending.mp hd
    -- the candidate of this operation's actor is not after it
    have hmem : b.candidate ⟨d.actor, clock.last d.actor + 1⟩ ∈ cs :=
      (h.mem _).mpr ⟨hlow.trans_le hhigh, rfl⟩
    have hle : b.key ⟨c.actor, c.sequence⟩ ≤ b.key ⟨d.actor, clock.last d.actor + 1⟩ := by
      have hcandidate := hmin _ hmem
      rw [heq, ← hsequence] at hcandidate
      -- candidates sort as their operations do: the identifier never decides
      simp only [RecordCandidate.key, TopicBranch.candidate, TopicBranch.key,
        Prod.Lex.toLex_le_toLex] at hcandidate ⊢
      omega
    have hle' : b.key ⟨d.actor, clock.last d.actor + 1⟩ ≤ b.key d :=
      TopicBranch.key_le_of_counter_le d.actor (Nat.succ_pos _) hlow
    exact lt_of_le_of_ne (hle.trans hle') fun hkey => hne (TopicBranch.key_injective hkey).symm

/-- Taking a candidate puts the actor's following operation in its place. -/
theorem step (hc : c ∈ cs)
    (hfollowing : b.candidateAfter frontier target c.actor c.sequence = .ok following) :
    Heads b (clock.advance c.actor c.sequence) target (following ++ cs.erase c) := by
  obtain ⟨hmem, hnodup⟩ := mem_candidateAfter hfollowing
  have hsequence := h.sequence_eq hc
  have hsame : ∀ c' ∈ cs, c'.actor = c.actor → c' = c := by
    intro c' hc' hactor
    rw [((h.mem c').mp hc').2, ((h.mem c).mp hc).2, hactor]
  have hlast : (clock.advance c.actor c.sequence).last c.actor = c.sequence := by
    rw [last_advance, if_pos rfl]
    omega
  refine ⟨fun c' => ?_, nodup_append'.mpr ⟨hnodup, h.nodup.erase c, fun c' hc' hin => ?_⟩⟩
  · rw [mem_append, h.nodup.mem_erase_iff, hmem]
    by_cases hactor : c'.actor = c.actor
    · rw [hactor, hlast, or_iff_left]
      exact fun ⟨hne, hin⟩ => hne (hsame c' hin hactor)
    · have hother : (clock.advance c.actor c.sequence).last c'.actor = clock.last c'.actor := by
        rw [last_advance, if_neg (Ne.symm hactor)]
      rw [hother, ← h.mem, or_iff_right]
      · exact and_iff_right fun heq => hactor (congrArg RecordCandidate.actor heq)
      · rintro ⟨_, rfl⟩
        exact hactor rfl
  · -- the candidate before was the only one of this actor
    obtain ⟨_, rfl⟩ := (hmem c').mp hc'
    obtain ⟨hne, hin⟩ := h.nodup.mem_erase_iff.mp hin
    exact hne (hsame _ hin rfl)

theorem eq_nil_iff : cs = [] ↔ pending clock target = ∅ := by
  constructor
  · rintro rfl
    refine Set.eq_empty_iff_forall_notMem.mpr fun d hd => ?_
    obtain ⟨hlow, hhigh⟩ := mem_pending.mp hd
    have hmem : b.candidate ⟨d.actor, clock.last d.actor + 1⟩ ∈ ([] : List RecordCandidate) :=
      (h.mem _).mpr ⟨hlow.trans_le hhigh, rfl⟩
    cases hmem
  · intro hempty
    refine eq_nil_iff_forall_not_mem.mpr fun c hc => ?_
    have hlt := ((h.mem c).mp hc).1
    have hmem : (⟨c.actor, clock.last c.actor + 1⟩ : Dot) ∈ pending clock target :=
      mem_pending.mpr ⟨Nat.lt_succ_self _, hlt⟩
    rw [hempty] at hmem
    exact hmem

end Heads

/-- What a page takes of what is pending. -/
structure Filled (b : TopicBranch) (clock target : VectorClock) (records : List TopicRecord)
    (rest : List RecordCandidate) : Prop where
  leading : Leading b.key (pending clock target) (records.map TopicRecord.dot)
  content : ∀ r ∈ records, r = b.record r.dot
  heads : Heads b (clock.consume (records.map TopicRecord.dot)) target rest

/-- A page takes nothing, which it does at its start only if nothing is pending; or it takes the
least candidate and goes on. -/
theorem fillPage_cases {room used : Nat} {first : Bool} {rest : List RecordCandidate}
    {records : List TopicRecord}
    (h : b.fillPage limits frontier target (room + 1) used first cs = .ok (records, rest)) :
    (records = [] ∧ rest = cs ∧ (first = true → cs = [])) ∨
    ∃ c ∈ cs, (∀ c' ∈ cs, c.key ≤ c'.key) ∧ ∃ following records',
      b.candidateAfter frontier target c.actor c.sequence = .ok following ∧
      b.fillPage limits frontier target room (used + (b.op ⟨c.actor, c.sequence⟩).bytes) false
        (following ++ cs.erase c) = .ok (records', rest) ∧
      records = b.record ⟨c.actor, c.sequence⟩ :: records' := by
  unfold TopicBranch.fillPage at h
  cases hmin : cs.argmin RecordCandidate.key with
  | none =>
    simp only [hmin] at h
    cases h
    exact .inl ⟨rfl, rfl, fun _ => argmin_eq_none.mp hmin⟩
  | some c =>
    simp only [hmin] at h
    by_cases hbytes : limits.bytes - used < (b.op ⟨c.actor, c.sequence⟩).bytes
    · -- the page is full, or its first record is too large
      rw [if_pos hbytes] at h
      cases first with
      | true => simp at h
      | false =>
        cases h
        exact .inl ⟨rfl, rfl, nofun⟩
    · rw [if_neg hbytes] at h
      cases hfollowing : b.candidateAfter frontier target c.actor c.sequence with
      | error e => simp [hfollowing] at h
      | ok following =>
        simp only [hfollowing] at h
        obtain ⟨⟨records', rest'⟩, hpage, heq⟩ := Fallible.map_eq_ok.mp h
        cases heq
        exact .inr ⟨c, argmin_mem hmin, fun c' hc' => le_of_mem_argmin hc' hmin, following,
          records', hfollowing, hpage, rfl⟩

theorem fillPage_filled {room used : Nat} {first : Bool} {rest : List RecordCandidate}
    {records : List TopicRecord} (hheads : Heads b clock target cs)
    (h : b.fillPage limits frontier target room used first cs = .ok (records, rest)) :
    Filled b clock target records rest := by
  induction room generalizing clock used first cs records with
  | zero =>
    cases h
    exact ⟨Leading.nil, nofun, hheads⟩
  | succ room ih =>
    rcases fillPage_cases h with
      ⟨rfl, rfl, _⟩ | ⟨c, hc, hmin, following, records', hfollowing, hpage, rfl⟩
    · exact ⟨Leading.nil, nofun, hheads⟩
    have hfirst := hheads.leading_singleton hc hmin
    have hfilled := ih (hheads.step hc hfollowing) hpage
    have hleft := (consume_of_leading hfirst).2
    have hdots : (b.record ⟨c.actor, c.sequence⟩ :: records').map TopicRecord.dot =
        [⟨c.actor, c.sequence⟩] ++ records'.map TopicRecord.dot := by
      simp
    refine ⟨?_, fun r hr => ?_, ?_⟩
    · rw [hdots]
      exact hfirst.append (hleft ▸ hfilled.leading)
    · rcases mem_cons.mp hr with rfl | hr
      · rw [TopicBranch.dot_record]
      · exact hfilled.content r hr
    · rw [hdots]
      exact hfilled.heads

/-- A page can be filled when every operation fits a page and none is missing. -/
theorem exists_fillPage (hfits : ∀ d, (b.op d).bytes ≤ limits.bytes)
    (htarget : ∀ a, target.last a ≤ frontier.last a) (room : Nat) {used : Nat} {first : Bool}
    (hfirst : first = true → used = 0) (cs : List RecordCandidate) :
    ∃ page, b.fillPage limits frontier target room used first cs = .ok page := by
  induction room generalizing used first cs with
  | zero => exact ⟨_, rfl⟩
  | succ room ih =>
    unfold TopicBranch.fillPage
    cases hmin : cs.argmin RecordCandidate.key with
    | none => exact ⟨_, rfl⟩
    | some c =>
      simp only
      by_cases hbytes : limits.bytes - used < (b.op ⟨c.actor, c.sequence⟩).bytes
      · rw [if_pos hbytes]
        cases first with
        | false => exact ⟨_, rfl⟩
        | true =>
          have hsize := hfits ⟨c.actor, c.sequence⟩
          have hused := hfirst rfl
          omega
      · rw [if_neg hbytes]
        obtain ⟨following, hfollowing⟩ :=
          @exists_candidateAfter b frontier target c.actor c.sequence (htarget c.actor)
        obtain ⟨page, hpage⟩ :=
          @ih (used + (b.op ⟨c.actor, c.sequence⟩).bytes) false nofun (following ++ cs.erase c)
        simp only [hfollowing, hpage]
        exact ⟨_, rfl⟩

def progressOf (stored : Option TopicCursor) : VectorClock :=
  (stored.map TopicCursor.clock).getD .new

/-- The frontier that a page is read up to. -/
def targetOf (stored : Option TopicCursor) (frontier : VectorClock) : VectorClock :=
  (stored.bind TopicCursor.target).getD frontier

structure PageRead (b : TopicBranch) (limits : PageLimits) (frontier : VectorClock)
    (stored : Option TopicCursor) (page : TopicCatchup) : Prop where
  branch : ∀ c ∈ stored, c.epoch = b.epoch ∧ c.genesis = b.genesis
  leading : Leading b.key (pending (progressOf stored) (targetOf stored frontier))
    (page.records.map TopicRecord.dot)
  content : ∀ r ∈ page.records, r = b.record r.dot
  more : page.more = true ↔ pending ((progressOf stored).consume (page.records.map TopicRecord.dot))
    (targetOf stored frontier) ≠ ∅
  cursor : page.cursor = ⟨b.epoch, b.genesis, progressOf stored,
    if page.more then some (targetOf stored frontier) else none⟩
  progress : 0 < limits.records → page.records = [] → page.more = false

theorem clock_getD (stored : Option TopicCursor) :
    (stored.getD ⟨b.epoch, b.genesis, .new, none⟩).clock = progressOf stored := by
  cases stored <;> rfl

theorem target_getD (stored : Option TopicCursor) :
    (stored.getD ⟨b.epoch, b.genesis, .new, none⟩).target.getD frontier =
      targetOf stored frontier := by
  cases stored <;> rfl

theorem topicRecordsSince_spec {stored : Option TopicCursor} {page : TopicCatchup}
    (h : b.topicRecordsSince limits frontier stored = .ok page) :
    PageRead b limits frontier stored page := by
  have hclock := @clock_getD b stored
  have htarget := @target_getD b frontier stored
  have hstored : ∀ c ∈ stored, stored.getD ⟨b.epoch, b.genesis, .new, none⟩ = c := by
    rintro c ⟨⟩
    rfl
  unfold TopicBranch.topicRecordsSince at h
  generalize stored.getD ⟨b.epoch, b.genesis, .new, none⟩ = state at h hclock htarget hstored
  dsimp only at h
  split at h
  · cases h
  rename_i hbranch
  obtain ⟨hepoch, hgenesis⟩ : state.epoch = b.epoch ∧ state.genesis = b.genesis := by
    simpa [not_or] using hbranch
  rw [htarget] at h
  split at h
  · cases h
  split at h
  · cases h
  rename_i candidates hstart
  obtain ⟨⟨records, rest⟩, hfill, rfl⟩ := Fallible.map_eq_ok.mp h
  rw [hclock] at hstart
  have hfilled := fillPage_filled (heads_of_startCandidates hstart) hfill
  refine ⟨fun c hc => hstored c hc ▸ ⟨hepoch, hgenesis⟩, hfilled.leading, hfilled.content,
    ?_, ?_, fun hroom hnil => ?_⟩
  · rw [Ne, ← hfilled.heads.eq_nil_iff]
    simp
  · obtain ⟨epoch, genesis, clock, target⟩ := state
    cases hepoch
    cases hgenesis
    cases hclock
    rfl
  · obtain ⟨room, hroom⟩ := Nat.exists_eq_succ_of_ne_zero hroom.ne'
    obtain rfl : records = [] := hnil
    rw [hroom] at hfill
    rcases fillPage_cases hfill with ⟨_, rfl, hempty⟩ | ⟨_, _, _, _, _, _, _, hcons⟩
    · simp [hempty rfl]
    · cases hcons

/-- A page can be read past a cursor of the branch, up to a target that the node has. -/
theorem exists_topicRecordsSince {stored : Option TopicCursor}
    (hbranch : ∀ c ∈ stored, c.epoch = b.epoch ∧ c.genesis = b.genesis)
    (hprogress : ∀ a, (progressOf stored).last a ≤ (targetOf stored frontier).last a)
    (htarget : ∀ a, (targetOf stored frontier).last a ≤ frontier.last a)
    (hfits : ∀ d, (b.op d).bytes ≤ limits.bytes) :
    ∃ page, b.topicRecordsSince limits frontier stored = .ok page := by
  have hstate : ¬ ((stored.getD ⟨b.epoch, b.genesis, .new, none⟩).epoch ≠ b.epoch ∨
      (stored.getD ⟨b.epoch, b.genesis, .new, none⟩).genesis ≠ b.genesis) := by
    cases stored with
    | none => simp
    | some c => simpa using hbranch c rfl
  unfold TopicBranch.topicRecordsSince
  rw [if_neg hstate, target_getD, clock_getD]
  have hfind : (progressOf stored).entries.keys.find?
      (fun a => (targetOf stored frontier).last a < (progressOf stored).last a) = none := by
    rw [find?_eq_none]
    intro a _
    simpa using hprogress a
  obtain ⟨candidates, hstart⟩ := @exists_startCandidates b frontier (progressOf stored)
    (targetOf stored frontier) (targetOf stored frontier).entries.keys htarget
  obtain ⟨page, hfill⟩ := exists_fillPage hfits htarget limits.records (fun _ => rfl) candidates
  simp only [hfind, hstart]
  rw [hfill]
  exact ⟨_, rfl⟩

end Page

end Craqle
