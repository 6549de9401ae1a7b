import Craqle.Replication.Catchup
import Craqle.Replication.Retry

/-! # Handing a topic over

`reconcile_topic` reads page after page, gives each record to the node and stores what was
consumed. A record that fails in a way that a retry could clear ends the pass; it is not consumed.
The frontier that a pass reads up to is fixed by its first page and forgotten with its last one, so
a pass after a stall that happened in the last page can have more to read than the pass before.

Every record is consumed once, after all that it depends on, and a pass that does not stall
consumes everything up to its frontier (`catchup_exactly_once`). The record that a pass stalled at
is the first one of the next pass, unless an operation that the stalled pass did not read up to
sorts before it.
-/

namespace Craqle

open Transition List VectorClock TopicRecord

/-! ## `reconcile_topic` -/

/-- A cursor at the start of the branch when the stored one is of an earlier epoch of the same
genesis, whose own records the topic has again. -/
def TopicBranch.restartCursor (b : TopicBranch) (frontier : VectorClock) (localActor : ActorId)
    (stored : TopicCursor) : Option TopicCursor :=
  if stored.genesis ≠ b.genesis ∨ stored.epoch = b.epoch ∨
      frontier.last localActor < stored.clock.last localActor then none
  else some ⟨b.epoch, b.genesis, .new, none⟩

/-- The records of a page that are consumed: those before the first one that stalls. -/
def consumedOf (env : TopicEnv) (topic : TopicId) : TopicPass → List TopicRecord → List TopicRecord
  | _, [] => []
  | pass, r :: rs =>
    let next := reconcileRecord env topic pass r
    if next.stalled.isSome then [] else r :: consumedOf env topic next rs

inductive PassError where
  | catchup (error : CatchupError)
  | noProgress
  | cursorStuck
  deriving DecidableEq

/-- What one round of the loop leaves: the node, the stored cursor, the positions it consumed, the
graphs it changed, and where and why it stalled. -/
structure PageOutcome where
  node : TopicNode
  stored : Option TopicCursor
  consumed : List Dot
  applied : List EventRecord
  stalled : Option (Dot × RecordError)
  more : Bool

/-- One round: read a page, give its records to the node, store the cursor. -/
def reconcilePage (env : TopicEnv) (limits : PageLimits) (topic : TopicId) (b : TopicBranch)
    (frontier : VectorClock) (node : TopicNode) (stored : Option TopicCursor) :
    Except PassError PageOutcome :=
  match b.topicRecordsSince limits frontier stored with
  | .error e => .error (.catchup e)
  | .ok page =>
    if page.records = [] ∧ page.more = true then .error .noProgress
    else
      let start : TopicPass := ⟨node, page.cursor.clock, [], none⟩
      let pass := page.records.foldl (reconcileRecord env topic) start
      let consumed := consumedOf env topic start page.records
      let failed := page.records[consumed.length]?
      .ok {
        node := if consumed = [] then pass.node else pass.node.setCursor topic pass.cursor
        -- nothing is stored before a record was consumed
        stored := if consumed = [] then stored else some { page.cursor with clock := pass.cursor }
        consumed := consumed.map TopicRecord.dot
        applied := pass.applied
        stalled := failed.bind fun r => pass.stalled.map fun e => (r.dot, e)
        more := page.more }

/-! ## Consuming a page -/

section Consuming

variable {env : TopicEnv} {topic : TopicId} {pass : TopicPass}

theorem reconcileRecord_cases (h : pass.stalled = none) (r : TopicRecord) :
    ((reconcileRecord env topic pass r).stalled = none ∧ (reconcileRecord env topic pass r).cursor =
        pass.cursor.advance r.opMeta.actor r.opMeta.actorSeq) ∨
    ((reconcileRecord env topic pass r).stalled.isSome ∧
      (reconcileRecord env topic pass r).cursor = pass.cursor) := by
  unfold reconcileRecord
  rw [h]
  simp only [Option.isSome_none, Bool.false_eq_true, if_false]
  cases r with
  | control m | rejected id m kind reason => exact .inl ⟨rfl, rfl⟩
  | event record =>
    simp only
    cases happly : applyReconciledRecord env pass.node topic record with
    | mk n result =>
      cases result with
      | ok applied => exact .inl ⟨rfl, rfl⟩
      | error e =>
        simp only
        split
        · exact .inl ⟨rfl, rfl⟩
        · exact .inr ⟨rfl, rfl⟩

theorem foldl_reconcileRecord_stalled (h : pass.stalled.isSome)
    (rs : List TopicRecord) : rs.foldl (reconcileRecord env topic) pass = pass :=
  foldl_fixed' (fun r => show reconcileRecord env topic pass r = pass from if_pos h) rs

theorem consumedOf_cons {r : TopicRecord} (rs : List TopicRecord)
    (h : (reconcileRecord env topic pass r).stalled = none) :
    consumedOf env topic pass (r :: rs) =
      r :: consumedOf env topic (reconcileRecord env topic pass r) rs := by
  simp [consumedOf, h]

theorem consumedOf_cons_stalled {r : TopicRecord} (rs : List TopicRecord)
    (h : (reconcileRecord env topic pass r).stalled.isSome) :
    consumedOf env topic pass (r :: rs) = [] := by
  simp only [consumedOf, h, if_true]

theorem foldl_reconcileRecord (h : pass.stalled = none) (rs : List TopicRecord) :
    (rs.foldl (reconcileRecord env topic) pass).cursor =
        pass.cursor.consume ((consumedOf env topic pass rs).map dot) ∧
      ∃ rest, rs = consumedOf env topic pass rs ++ rest ∧
        ((rs.foldl (reconcileRecord env topic) pass).stalled = none ↔ rest = []) := by
  induction rs generalizing pass with
  | nil => exact ⟨rfl, [], rfl, by simp [h]⟩
  | cons r rs ih =>
    rw [foldl_cons]
    rcases reconcileRecord_cases h r with ⟨hnext, hcursor⟩ | ⟨hnext, hcursor⟩
    · obtain ⟨hfold, rest, hsplit, hrest⟩ := ih hnext
      rw [consumedOf_cons rs hnext]
      refine ⟨?_, rest, ?_, hrest⟩
      · rw [hfold, hcursor]
        rfl
      · rw [cons_append, ← hsplit]
    · rw [foldl_reconcileRecord_stalled hnext, consumedOf_cons_stalled rs hnext]
      refine ⟨hcursor, r :: rs, rfl, ?_⟩
      simp [Option.isSome_iff_ne_none.mp hnext]

structure PageConsumed (b : TopicBranch) (limits : PageLimits) (frontier : VectorClock)
    (stored : Option TopicCursor) (out : PageOutcome) : Prop where
  branch : ∀ c ∈ stored, c.epoch = b.epoch ∧ c.genesis = b.genesis
  leading : ∃ rest, Leading b.key (pending (progressOf stored) (targetOf stored frontier))
      (out.consumed ++ rest) ∧
    (out.stalled.map Prod.fst = rest.head?) ∧
    (rest = [] → (out.more = true ↔
      pending ((progressOf stored).consume out.consumed) (targetOf stored frontier) ≠ ∅)) ∧
    (0 < limits.records → out.consumed ++ rest = [] → out.more = false)
  stored : out.stored = if out.consumed = [] then stored else
    some ⟨b.epoch, b.genesis, (progressOf stored).consume out.consumed,
      if out.more then some (targetOf stored frontier) else none⟩

theorem reconcilePage_spec {b : TopicBranch} {limits : PageLimits} {frontier : VectorClock}
    {node : TopicNode} {stored : Option TopicCursor} {out : PageOutcome}
    (h : reconcilePage env limits topic b frontier node stored = .ok out) :
    PageConsumed b limits frontier stored out := by
  unfold reconcilePage at h
  split at h
  · cases h
  rename_i page hpage
  have hread := topicRecordsSince_spec hpage
  split at h
  · cases h
  cases h
  have hclock : page.cursor.clock = progressOf stored := by rw [hread.cursor]
  set start : TopicPass := ⟨node, page.cursor.clock, [], none⟩ with hstart
  obtain ⟨hcursor, rest, hsplit, hrest⟩ := @foldl_reconcileRecord env topic start rfl page.records
  set pass := page.records.foldl (reconcileRecord env topic) start with hpass
  set consumed := consumedOf env topic start page.records with hconsumed
  have hdots : page.records.map dot =
      consumed.map dot ++ rest.map dot := by
    rw [← map_append, ← hsplit]
  refine ⟨hread.branch, ⟨rest.map dot, ?_, ?_, ?_, ?_⟩, ?_⟩
  · rw [← hdots]
    exact hread.leading
  · -- the record after the consumed ones is the one that failed
    have hnext : page.records[consumed.length]? = rest.head? := by
      conv_lhs => rw [hsplit]
      rw [getElem?_append_right le_rfl, Nat.sub_self, head?_eq_getElem?]
    show (Option.bind _ _).map _ = _
    rw [hnext]
    cases rest with
    | nil => rfl
    | cons r rs =>
      cases hs : pass.stalled with
      | none => exact absurd (hrest.mp hs) (cons_ne_nil _ _)
      | some e => rfl
  · intro hnil
    obtain rfl : rest = [] := map_eq_nil_iff.mp hnil
    rw [append_nil] at hsplit
    rw [hread.more, hsplit]
  · intro hroom hnil
    exact hread.progress hroom (map_eq_nil_iff.mp (hdots.trans hnil))
  · show (if consumed = [] then stored else some { page.cursor with clock := pass.cursor }) =
      if consumed.map dot = [] then stored else _
    rw [hcursor, hstart]
    simp only [map_eq_nil_iff, hclock]
    rw [hread.cursor]

end Consuming

/-! ## Runs -/

/-- A pass stalled at a record: the frontier that it read up to, and how much had been consumed. -/
structure Stall where
  record : Dot
  target : VectorClock
  consumed : Nat

/-- A node that reconciles one topic, with all that it consumed, in order, and where it stalled,
the last time first. -/
structure CatchupRun where
  node : TopicNode
  stored : Option TopicCursor
  frontier : VectorClock
  consumed : List Dot
  stalls : List Stall

namespace CatchupRun

def progress (s : CatchupRun) : VectorClock := progressOf s.stored

/-- What the next page reads up to. -/
def target (s : CatchupRun) : VectorClock := targetOf s.stored s.frontier

/-- After a round. -/
def afterPage (s : CatchupRun) (out : PageOutcome) : CatchupRun where
  node := out.node
  stored := out.stored
  frontier := s.frontier
  consumed := s.consumed ++ out.consumed
  stalls := (out.stalled.map fun e =>
    ⟨e.1, s.target, (s.consumed ++ out.consumed).length⟩).toList ++ s.stalls

end CatchupRun

/-- Operations arrive, other work changes the node, and rounds of `reconcile_topic` run. -/
inductive CatchupStep where
  | receive (frontier : VectorClock)
  | work (node : TopicNode)
  | page

/-- The node of one branch, from nothing. A node has, with each operation, its dependencies. -/
def catchup (env : TopicEnv) (limits : PageLimits) (topic : TopicId) (b : TopicBranch) :
    System CatchupRun CatchupStep where
  init s := s.stored = none ∧ b.Closed s.frontier ∧ s.consumed = [] ∧ s.stalls = []
  step
    | s, .receive frontier, s' =>
      s.frontier.upTo ⊆ frontier.upTo ∧ b.Closed frontier ∧ s' = { s with frontier := frontier }
    | s, .work node, s' => s' = { s with node := node }
    | s, .page, s' => ∃ out, reconcilePage env limits topic b s.frontier s.node s.stored = .ok out ∧
        s' = s.afterPage out

/-- Every record is consumed once, after all that it depends on, and what is consumed is what the
stored cursor says. -/
structure Delivered (b : TopicBranch) (s : CatchupRun) : Prop where
  nodup : s.consumed.Nodup
  progress : ∀ d, d ∈ s.consumed ↔ d ∈ s.progress.upTo
  causal : ∀ before d after, s.consumed = before ++ d :: after → ∀ e, b.DependsOn d e → e ∈ before

/-- The cursor is of the branch, behind what the next page reads up to, which the node has. -/
structure Cursored (b : TopicBranch) (s : CatchupRun) : Prop where
  branch : ∀ c ∈ s.stored, c.epoch = b.epoch ∧ c.genesis = b.genesis
  behind : s.progress.upTo ⊆ s.target.upTo
  held : s.target.upTo ⊆ s.frontier.upTo
  closed : b.Closed s.target
  frontier : b.Closed s.frontier

/-- Of what the stalled pass read up to, the record sorts before everything that is left, and
what was consumed before it is not of that. -/
structure Blocked (b : TopicBranch) (s : CatchupRun) (stall : Stall) : Prop where
  within : stall.record ∈ stall.target.upTo
  target : stall.target.upTo ⊆ s.target.upTo
  since : stall.consumed ≤ s.consumed.length
  fresh : stall.record ∉ s.consumed.take stall.consumed
  first : stall.record ∉ s.consumed → ∀ e ∈ stall.target.upTo, e ∉ s.consumed →
    e ≠ stall.record → b.key stall.record < b.key e
  between : ∀ e ∈ (s.consumed.drop stall.consumed).takeWhile (· ≠ stall.record),
    e ∉ stall.target.upTo ∧ b.key e < b.key stall.record

structure HandoverInvariant (b : TopicBranch) (s : CatchupRun) : Prop where
  delivered : Delivered b s
  cursored : Cursored b s
  blocked : ∀ stall ∈ s.stalls, Blocked b s stall

variable {env : TopicEnv} {limits : PageLimits} {topic : TopicId} {b : TopicBranch}
  {s : CatchupRun} {out : PageOutcome}

theorem handoverInvariant_init (h : (catchup env limits topic b).init s) :
    HandoverInvariant b s := by
  obtain ⟨hstored, hclosed, hconsumed, hstalls⟩ := h
  have hprogress : s.progress.upTo = ∅ := by
    ext d
    simp [CatchupRun.progress, progressOf, hstored, upTo]
    omega
  have htarget : s.target = s.frontier := by
    simp [CatchupRun.target, targetOf, hstored]
  refine ⟨⟨?_, ?_, ?_⟩, ⟨?_, ?_, ?_, ?_, hclosed⟩, ?_⟩
  · simp [hconsumed]
  · simp [hconsumed, hprogress]
  · intro before d after hsplit
    simp [hconsumed] at hsplit
  · simp [hstored]
  · simp [hprogress]
  · rw [htarget]
  · rwa [htarget]
  · simp [hstalls]

/-! ### A round -/

theorem not_mem_consumed (hd : Delivered b s) {d : Dot}
    (h : d ∈ pending (progressOf s.stored) (targetOf s.stored s.frontier)) : d ∉ s.consumed :=
  fun hmem => h.2 ((hd.progress d).mp hmem)

/-- The part of a list before an element does not change when the list is extended. -/
theorem takeWhile_append_cons {α : Type*} [DecidableEq α] {x : α} {l l' : List α} (h : x ∉ l) :
    (l ++ x :: l').takeWhile (· ≠ x) = l := by
  have hne : ∀ y ∈ l, decide (y ≠ x) = true := by
    intro y hy
    exact decide_eq_true fun heq => h (heq ▸ hy)
  rw [takeWhile_append_of_pos hne]
  simp

section Round

variable (h : PageConsumed b limits s.frontier s.stored out)

include h

theorem progress_afterPage :
    (s.afterPage out).progress.upTo = s.progress.upTo ∪ {d | d ∈ out.consumed} := by
  obtain ⟨rest, hleading, -⟩ := h.leading
  have hupTo := (consume_of_leading hleading.left).1
  show (progressOf out.stored).upTo = _
  rw [h.stored]
  split
  · rename_i hnil
    simp [hnil, CatchupRun.progress]
  · exact hupTo

/-- A pass keeps what it reads up to, until its last page. -/
theorem target_afterPage {P : VectorClock → Prop} (htarget : P s.target) (hfrontier : P s.frontier) :
    P (s.afterPage out).target := by
  show P (targetOf out.stored s.frontier)
  rw [h.stored]
  split
  · exact htarget
  · cases out.more with
    | true => exact htarget
    | false => exact hfrontier

theorem target_subset_afterPage (hc : Cursored b s) :
    s.target.upTo ⊆ (s.afterPage out).target.upTo :=
  target_afterPage h (P := fun t => s.target.upTo ⊆ t.upTo) subset_rfl hc.held

theorem delivered_afterPage (hd : Delivered b s) (hc : Cursored b s) : Delivered b (s.afterPage out) := by
  obtain ⟨rest, hfull, -⟩ := h.leading
  have hleading := hfull.left
  refine ⟨?_, fun d => ?_, ?_⟩
  · refine nodup_append.mpr ⟨hd.nodup, hleading.nodup, ?_⟩
    rintro d hold e hnew rfl
    exact not_mem_consumed hd (hleading.mem d hnew) hold
  · rw [progress_afterPage h]
    show d ∈ s.consumed ++ out.consumed ↔ _
    simp [hd.progress d]
  · intro before d after hsplit e hdepends
    -- what was consumed in this round has its dependencies before it in the round, or consumed
    have hround : ∀ new, out.consumed = new ++ d :: after → e ∈ s.consumed ++ new := by
      intro new hnew
      have hd' : d ∈ s.target.upTo := (hleading.mem d (by simp [hnew])).1
      have he : e ∈ s.target.upTo := hc.closed d hd' e hdepends
      by_cases hprogress : e ∈ s.progress.upTo
      · exact mem_append_left _ ((hd.progress e).mpr hprogress)
      · rw [hnew] at hleading
        exact mem_append_right _
          (hleading.mem_left ⟨he, hprogress⟩ (TopicBranch.key_lt_of_dependsOn hdepends))
    have hsplit : s.consumed ++ out.consumed = before ++ d :: after := hsplit
    rcases append_eq_append_iff.mp hsplit with ⟨new, rfl, hnew⟩ | ⟨old, hold, hnew⟩
    · exact hround new hnew
    cases old with
    | nil =>
      have hbefore := hround [] hnew.symm
      rw [hold] at hbefore
      simpa using hbefore
    | cons x old =>
      obtain ⟨rfl, -⟩ := cons.inj (hnew.trans (cons_append ..).symm)
      exact hd.causal before _ old hold e hdepends

theorem cursored_afterPage (hc : Cursored b s) : Cursored b (s.afterPage out) := by
  have htarget := target_subset_afterPage h hc
  refine ⟨?_, ?_, target_afterPage h (P := fun t => t.upTo ⊆ s.frontier.upTo) hc.held subset_rfl,
    target_afterPage h hc.closed hc.frontier, hc.frontier⟩
  · show ∀ c ∈ out.stored, _
    rw [h.stored]
    split
    · exact hc.branch
    · rintro c ⟨⟩
      exact ⟨rfl, rfl⟩
  · obtain ⟨rest, hfull, -⟩ := h.leading
    rw [progress_afterPage h]
    refine Set.union_subset (hc.behind.trans htarget) fun d hd => htarget ?_
    exact (hfull.left.mem d hd).1

/-- A record that a round stalled at. -/
theorem blocked_of_stalled (hd : Delivered b s) (hc : Cursored b s) {d : Dot}
    (hstalled : out.stalled.map Prod.fst = some d) :
    Blocked b (s.afterPage out) ⟨d, s.target, (s.consumed ++ out.consumed).length⟩ := by
  obtain ⟨rest, hleading, hrest, -⟩ := h.leading
  rw [hstalled] at hrest
  obtain ⟨rest, rfl⟩ : ∃ rs, rest = d :: rs := by
    cases rest with
    | nil => cases hrest
    | cons r rs =>
      cases hrest
      exact ⟨rs, rfl⟩
  have hright := hleading.right
  have hd' := hright.mem d mem_cons_self
  have hfresh : d ∉ s.consumed ++ out.consumed := by
    rw [mem_append, not_or]
    exact ⟨not_mem_consumed hd hd'.1, hd'.2⟩
  refine ⟨hd'.1.1, target_subset_afterPage h hc, le_rfl, ?_, fun _ e he hnot hne => ?_, ?_⟩
  · show d ∉ (s.consumed ++ out.consumed).take (s.consumed ++ out.consumed).length
    rwa [take_length]
  · have hnot : e ∉ s.consumed ++ out.consumed := hnot
    rw [mem_append, not_or] at hnot
    have hpending : e ∈ pending (progressOf s.stored) (targetOf s.stored s.frontier) :=
      ⟨he, fun hprogress => hnot.1 ((hd.progress e).mpr hprogress)⟩
    exact hright.head_lt ⟨hpending, hnot.2⟩ hne
  · show ∀ e ∈ ((s.consumed ++ out.consumed).drop (s.consumed ++ out.consumed).length).takeWhile _, _
    simp

/-- What a round consumes before the record that an earlier pass stalled at was not read by that
pass and sorts before the record. -/
theorem between_of_leading {stall : Stall} (hd : Delivered b s) (hb : Blocked b s stall)
    (hmissing : stall.record ∉ s.consumed) :
    ∀ e ∈ out.consumed.takeWhile (· ≠ stall.record),
      e ∉ stall.target.upTo ∧ b.key e < b.key stall.record := by
  intro e he
  obtain ⟨rest, hfull, -⟩ := h.leading
  have hleading := hfull.left
  have hmem : e ∈ out.consumed := (takeWhile_sublist _).subset he
  have hne : e ≠ stall.record := by simpa using mem_takeWhile_imp he
  have hlt : b.key e < b.key stall.record := by
    by_cases hin : stall.record ∈ out.consumed
    · -- both are in the page, and the page is in order
      obtain ⟨l₁, l₂, hsplit⟩ := append_of_mem hin
      rw [hsplit] at hleading he
      have hfirst : stall.record ∉ l₁ := fun hmem₁ =>
        (nodup_append.mp hleading.nodup).2.2 _ hmem₁ _ mem_cons_self rfl
      have hbefore : e ∈ l₁ := by rwa [takeWhile_append_cons hfirst] at he
      exact (pairwise_append.mp hleading.sorted).2.2 e hbefore stall.record mem_cons_self
    · have hpending : stall.record ∈ pending (progressOf s.stored) (targetOf s.stored s.frontier) :=
        ⟨hb.target hb.within, fun hp => hmissing ((hd.progress _).mpr hp)⟩
      exact hleading.least e hmem stall.record hpending hin
  refine ⟨fun hold => ?_, hlt⟩
  have hnot := not_mem_consumed hd (hleading.mem e hmem)
  exact hlt.asymm (hb.first hmissing e hold hnot hne)

theorem blocked_afterPage {stall : Stall} (hd : Delivered b s) (hc : Cursored b s)
    (hb : Blocked b s stall) :
    Blocked b (s.afterPage out) stall := by
  have hlength : (s.consumed ++ out.consumed).length = s.consumed.length + out.consumed.length :=
    length_append
  have hsince := hb.since
  have htake : (s.consumed ++ out.consumed).take stall.consumed = s.consumed.take stall.consumed :=
    take_append_of_le_length hsince
  have hdrop : (s.consumed ++ out.consumed).drop stall.consumed =
      s.consumed.drop stall.consumed ++ out.consumed :=
    drop_append_of_le_length hsince
  refine ⟨hb.within, hb.target.trans (target_subset_afterPage h hc), ?_, ?_, ?_, ?_⟩
  · show stall.consumed ≤ (s.consumed ++ out.consumed).length
    omega
  · show stall.record ∉ (s.consumed ++ out.consumed).take stall.consumed
    rw [htake]
    exact hb.fresh
  · intro hmissing e he hnot hne
    have hmissing : stall.record ∉ s.consumed ++ out.consumed := hmissing
    have hnot : e ∉ s.consumed ++ out.consumed := hnot
    rw [mem_append, not_or] at hmissing hnot
    exact hb.first hmissing.1 e he hnot.1 hne
  · show ∀ e ∈ ((s.consumed ++ out.consumed).drop stall.consumed).takeWhile (· ≠ stall.record), _
    rw [hdrop]
    by_cases hmissing : stall.record ∈ s.consumed
    · -- consumed since the stall, so this round adds nothing before it
      have hmem : stall.record ∈ s.consumed.drop stall.consumed := by
        rw [← take_append_drop stall.consumed s.consumed] at hmissing
        exact (mem_append.mp hmissing).resolve_left hb.fresh
      obtain ⟨before, after, hsplit, hfirst⟩ := eq_append_cons_of_mem hmem
      have hbetween := hb.between
      rw [hsplit, takeWhile_append_cons hfirst] at hbetween
      rw [hsplit, append_assoc, cons_append, takeWhile_append_cons hfirst]
      exact hbetween
    · have hall : ∀ x ∈ s.consumed.drop stall.consumed, decide (x ≠ stall.record) = true := by
        intro x hx
        rw [decide_eq_true_eq]
        rintro rfl
        exact hmissing (mem_of_mem_drop hx)
      rw [takeWhile_append_of_pos hall]
      intro e he
      rcases mem_append.mp he with he | he
      · refine hb.between e ?_
        rwa [takeWhile_eq_self_iff.mpr hall]
      · exact between_of_leading h hd hb hmissing e he

theorem handoverInvariant_afterPage (hs : HandoverInvariant b s) :
    HandoverInvariant b (s.afterPage out) := by
  obtain ⟨hdelivered, hcursored, hblocked⟩ := hs
  refine ⟨delivered_afterPage h hdelivered hcursored, cursored_afterPage h hcursored,
    fun stall hstall => ?_⟩
  rcases mem_append.mp hstall with hnew | hold
  · cases hstalled : out.stalled with
    | none => simp [hstalled] at hnew
    | some e =>
      obtain rfl : stall = ⟨e.1, s.target, (s.consumed ++ out.consumed).length⟩ := by
        simpa [hstalled] using hnew
      exact blocked_of_stalled h hdelivered hcursored (by rw [hstalled]; rfl)
  · exact blocked_afterPage h hdelivered hcursored (hblocked stall hold)

end Round

/-! ### All steps -/

/-- More operations can be read by the next pass, and none of them by the one under way. -/
theorem target_receive {frontier : VectorClock} (hgrow : s.frontier.upTo ⊆ frontier.upTo)
    (hclosed : b.Closed frontier) (hc : Cursored b s) :
    s.target.upTo ⊆ ({ s with frontier := frontier } : CatchupRun).target.upTo ∧
      Cursored b { s with frontier := frontier } := by
  have hnext : ∀ {P : VectorClock → Prop}, P s.target → (s.target = s.frontier → P frontier) →
      P ({ s with frontier := frontier } : CatchupRun).target := by
    unfold CatchupRun.target targetOf
    cases s.stored.bind TopicCursor.target with
    | none => exact fun _ hnew => hnew rfl
    | some t => exact fun hold _ => hold
  have htarget : s.target.upTo ⊆ ({ s with frontier := frontier } : CatchupRun).target.upTo :=
    hnext (P := fun t => s.target.upTo ⊆ t.upTo) subset_rfl fun hsame => hsame ▸ hgrow
  exact ⟨htarget, hc.branch, hc.behind.trans htarget,
    hnext (P := fun t => t.upTo ⊆ frontier.upTo) (hc.held.trans hgrow) fun _ => subset_rfl,
    hnext hc.closed fun _ => hclosed, hclosed⟩

theorem handoverInvariant_receive {frontier : VectorClock}
    (hgrow : s.frontier.upTo ⊆ frontier.upTo) (hclosed : b.Closed frontier)
    (hs : HandoverInvariant b s) : HandoverInvariant b { s with frontier := frontier } := by
  obtain ⟨htarget, hcursored⟩ := target_receive hgrow hclosed hs.cursored
  refine ⟨⟨hs.delivered.nodup, hs.delivered.progress, hs.delivered.causal⟩, hcursored,
    fun stall hstall => ?_⟩
  have hb := hs.blocked stall hstall
  exact ⟨hb.within, hb.target.trans htarget, hb.since, hb.fresh, hb.first, hb.between⟩

theorem handoverInvariant_step {i : CatchupStep} {s' : CatchupRun} (hs : HandoverInvariant b s)
    (hstep : (catchup env limits topic b).step s i s') : HandoverInvariant b s' := by
  cases i with
  | receive frontier =>
    obtain ⟨hgrow, hclosed, rfl⟩ := hstep
    exact handoverInvariant_receive hgrow hclosed hs
  | work node =>
    obtain rfl := hstep
    obtain ⟨hd, hc, hb⟩ := hs
    exact ⟨⟨hd.nodup, hd.progress, hd.causal⟩,
      ⟨hc.branch, hc.behind, hc.held, hc.closed, hc.frontier⟩, fun stall hstall =>
        have h := hb stall hstall
        ⟨h.within, h.target, h.since, h.fresh, h.first, h.between⟩⟩
  | page =>
    obtain ⟨out, hpage, rfl⟩ := hstep
    exact handoverInvariant_afterPage (reconcilePage_spec hpage) hs

theorem handoverInvariant_of_reachable
    (h : Reachable (catchup env limits topic b) anyStep s) : HandoverInvariant b s :=
  h.invariant (fun _ => handoverInvariant_init) fun _ _ _ hs _ hstep =>
    handoverInvariant_step hs hstep

/-! ## A whole pass -/

/-- The loop of `reconcile_topic`. Operations can arrive between two pages: each page finds a
frontier of its own. -/
def reconcilePages (env : TopicEnv) (limits : PageLimits) (topic : TopicId) (b : TopicBranch)
    (frontiers : ℕ → VectorClock) : (fuel i : ℕ) → CatchupRun →
      Option (Except PassError CatchupRun)
  | 0, _, _ => none
  | fuel + 1, i, s =>
    let s := { s with frontier := frontiers i }
    match reconcilePage env limits topic b s.frontier s.node s.stored with
    | .error e => some (.error e)
    | .ok out =>
      if out.stalled.isSome ∨ out.more = false then some (.ok (s.afterPage out))
      else if out.stored = s.stored then some (.error .cursorStuck)
      else reconcilePages env limits topic b frontiers fuel (i + 1) (s.afterPage out)

/-- A pass: a cursor of a replaced branch starts anew, then the pages are read. -/
def reconcilePass (env : TopicEnv) (limits : PageLimits) (topic : TopicId) (b : TopicBranch)
    (frontiers : ℕ → VectorClock) (fuel : ℕ) (s : CatchupRun) :
    Option (Except PassError CatchupRun) :=
  let stored := s.stored.map fun c =>
    (b.restartCursor (frontiers 0) (env.localActor topic) c).getD c
  reconcilePages env limits topic b frontiers fuel 1 { s with stored := stored }

/-- What a node finds of a topic over time. -/
structure Growing (b : TopicBranch) (s : CatchupRun) (frontiers : ℕ → VectorClock) : Prop where
  start : s.frontier.upTo ⊆ (frontiers 0).upTo
  next : ∀ i, (frontiers i).upTo ⊆ (frontiers (i + 1)).upTo
  closed : ∀ i, b.Closed (frontiers i)

/-- A pass ends at a record that stalls, which is of what it reads up to and is not consumed, or with
everything consumed up to its frontier. -/
def PassEnds (s s' : CatchupRun) (target : VectorClock) : Prop :=
  (∃ d ∈ target.upTo, d ∉ s'.consumed ∧
    s'.stalls = ⟨d, target, s'.consumed.length⟩ :: s.stalls) ∨
  (s'.stalls = s.stalls ∧ ∀ d ∈ target.upTo, d ∈ s'.consumed)

theorem VectorClock.finite_upTo (c : VectorClock) : c.upTo.Finite := by
  refine Set.Finite.subset (s := ⋃ a ∈ c.entries.keys, (fun n => (⟨a, n⟩ : Dot)) '' Set.Iic (c.last a))
    ?_ ?_
  · exact Set.Finite.biUnion (finite_toSet _) fun a _ => (Set.finite_Iic _).image _
  rintro ⟨a, n⟩ ⟨hpos, hle⟩
  have hmem : a ∈ c.entries := by
    by_contra hnot
    have hzero : c.last a = 0 := by simp [last, Std.ExtTreeMap.getElem?_eq_none hnot]
    dsimp only at hpos hle
    omega
  simp only [Set.mem_iUnion]
  exact ⟨a, Std.ExtTreeMap.mem_keys.mpr hmem, n, hle, rfl⟩

theorem finite_pending (clock target : VectorClock) : (pending clock target).Finite :=
  target.finite_upTo.subset Set.sdiff_subset

/-- A page can be read in every state of a run. -/
theorem exists_page (hfits : ∀ d, (b.op d).bytes ≤ limits.bytes) (hc : Cursored b s) :
    ∃ page, b.topicRecordsSince limits s.frontier s.stored = .ok page :=
  exists_topicRecordsSince hc.branch (upTo_subset_iff.mp hc.behind)
    (upTo_subset_iff.mp hc.held) hfits

theorem exists_reconcilePage (hroom : 0 < limits.records)
    (hfits : ∀ d, (b.op d).bytes ≤ limits.bytes) (hc : Cursored b s) :
    ∃ out, reconcilePage env limits topic b s.frontier s.node s.stored = .ok out := by
  obtain ⟨page, hpage⟩ := exists_page hfits hc
  have hread := topicRecordsSince_spec hpage
  have hprogress : ¬ (page.records = [] ∧ page.more = true) := by
    rintro ⟨hnil, hmore⟩
    rw [hread.progress hroom hnil] at hmore
    cases hmore
  unfold reconcilePage
  rw [hpage]
  simp only [if_neg hprogress]
  exact ⟨_, rfl⟩

/-- A round that neither stalls nor is the last one: the pass goes on with less to read. -/
theorem afterPage_continues {out : PageOutcome} (hroom : 0 < limits.records)
    (h : PageConsumed b limits s.frontier s.stored out) (hstalled : out.stalled = none)
    (hmore : out.more = true) (frontier : VectorClock) :
    out.stored ≠ s.stored ∧ targetOf out.stored frontier = s.target ∧
      pending (progressOf out.stored) s.target ⊂ pending s.progress s.target := by
  obtain ⟨rest, hleading, hrest, -, hprogress⟩ := h.leading
  obtain rfl : rest = [] := by
    rw [hstalled] at hrest
    exact head?_eq_none_iff.mp hrest.symm
  rw [append_nil] at hleading hprogress
  have hne : out.consumed ≠ [] := by
    intro hnil
    rw [hprogress hroom hnil] at hmore
    cases hmore
  have hstored := h.stored
  rw [if_neg hne, hmore, if_pos rfl] at hstored
  have hclock : progressOf out.stored = (progressOf s.stored).consume out.consumed := by
    rw [hstored]
    rfl
  have hless : pending (progressOf out.stored) s.target ⊂ pending s.progress s.target := by
    obtain ⟨d, hd⟩ := exists_mem_of_ne_nil _ hne
    have hpending := (consume_of_leading hleading).2
    rw [hclock]
    refine Set.ssubset_iff_subset_ne.mpr ⟨?_, fun heq => ?_⟩
    · exact hpending ▸ Set.sdiff_subset
    · have hmem : d ∈ pending s.progress s.target := hleading.mem d hd
      rw [← heq] at hmem
      exact (hpending ▸ hmem : d ∈ _ \ {d | d ∈ out.consumed}).2 hd
  refine ⟨fun heq => ?_, ?_, hless⟩
  · rw [heq] at hless
    exact hless.ne rfl
  · rw [hstored]
    rfl

theorem passEnds_afterPage {out : PageOutcome} (h : PageConsumed b limits s.frontier s.stored out)
    (hd : Delivered b s) (hafter : HandoverInvariant b (s.afterPage out))
    (hlast : out.stalled.isSome ∨ out.more = false) :
    PassEnds s (s.afterPage out) s.target := by
  cases hstalled : out.stalled with
  | some e =>
    have hstalls : (s.afterPage out).stalls =
        ⟨e.1, s.target, (s.afterPage out).consumed.length⟩ :: s.stalls := by
      simp [CatchupRun.afterPage, hstalled]
    have hblocked := hafter.blocked _ (hstalls ▸ mem_cons_self)
    have hfresh := hblocked.fresh
    rw [take_length] at hfresh
    exact .inl ⟨e.1, hblocked.within, hfresh, hstalls⟩
  | none =>
    obtain ⟨rest, hleading, hrest, hmore, -⟩ := h.leading
    obtain rfl : rest = [] := by
      rw [hstalled] at hrest
      exact head?_eq_none_iff.mp hrest.symm
    rw [append_nil] at hleading
    have hempty : pending ((progressOf s.stored).consume out.consumed) s.target = ∅ := by
      by_contra hne
      have hmore' := (hmore rfl).mpr hne
      simp [hstalled, hmore'] at hlast
    refine .inr ⟨by simp [CatchupRun.afterPage, hstalled], fun d hd' => ?_⟩
    show d ∈ s.consumed ++ out.consumed
    rw [mem_append, hd.progress d]
    have hmem : d ∈ ((progressOf s.stored).consume out.consumed).upTo := by
      by_contra hnot
      have : d ∈ pending ((progressOf s.stored).consume out.consumed) s.target := ⟨hd', hnot⟩
      rwa [hempty] at this
    rwa [(consume_of_leading hleading).1] at hmem

/-- A pass comes to its end, however the topic grows meanwhile. -/
theorem exists_reconcilePages (hroom : 0 < limits.records)
    (hfits : ∀ d, (b.op d).bytes ≤ limits.bytes) {frontiers : ℕ → VectorClock}
    (hnext : ∀ i, (frontiers i).upTo ⊆ (frontiers (i + 1)).upTo)
    (hclosed : ∀ i, b.Closed (frontiers i)) {i : ℕ}
    (hs : Reachable (catchup env limits topic b) anyStep s)
    (hstart : s.frontier.upTo ⊆ (frontiers i).upTo) :
    ∃ fuel s', reconcilePages env limits topic b frontiers fuel i s = some (.ok s') ∧
      Reachable (catchup env limits topic b) anyStep s' ∧
      PassEnds s s' (targetOf s.stored (frontiers i)) := by
  -- a page that is not the last one consumes something, and the pass keeps its target
  induction hn : (pending s.progress (targetOf s.stored (frontiers i))).ncard
    using Nat.strong_induction_on generalizing s i with
  | _ n ih =>
    set r : CatchupRun := { s with frontier := frontiers i } with hr
    have hreach : Reachable (catchup env limits topic b) anyStep r :=
      .step (.receive (frontiers i)) hs trivial ⟨hstart, hclosed i, rfl⟩
    have hinv := handoverInvariant_of_reachable hreach
    obtain ⟨out, hpage⟩ := @exists_reconcilePage env limits topic b r hroom hfits hinv.cursored
    have hspec := reconcilePage_spec hpage
    have hafter : Reachable (catchup env limits topic b) anyStep (r.afterPage out) :=
      .step .page hreach trivial ⟨out, hpage, rfl⟩
    by_cases hlast : out.stalled.isSome ∨ out.more = false
    · refine ⟨1, r.afterPage out, ?_, hafter, passEnds_afterPage hspec hinv.delivered
        (handoverInvariant_of_reachable hafter) hlast⟩
      have hpage : reconcilePage env limits topic b (frontiers i) s.node s.stored = .ok out := hpage
      simp only [reconcilePages, hpage, if_pos hlast, hr]
    obtain ⟨hstalled, hmore⟩ : out.stalled = none ∧ out.more = true := by
      simpa [not_or] using hlast
    obtain ⟨hstored, htarget, hless⟩ :=
      afterPage_continues hroom hspec hstalled hmore (frontiers (i + 1))
    have hfewer : (pending (r.afterPage out).progress
        (targetOf (r.afterPage out).stored (frontiers (i + 1)))).ncard < n := by
      rw [← hn, show (r.afterPage out).stored = out.stored from rfl, htarget]
      exact Set.ncard_lt_ncard hless (finite_pending _ _)
    obtain ⟨fuel, s', hpages, hreach', hends⟩ := ih _ hfewer hafter (hnext i) rfl
    refine ⟨fuel + 1, s', ?_, hreach', ?_⟩
    · have hpage : reconcilePage env limits topic b (frontiers i) s.node s.stored = .ok out := hpage
      have hstored : out.stored ≠ s.stored := hstored
      simp only [reconcilePages, hpage, if_neg hlast, if_neg hstored]
      exact hpages
    · have hstalls : (r.afterPage out).stalls = s.stalls := by
        simp [CatchupRun.afterPage, hstalled, hr]
      rw [show (r.afterPage out).stored = out.stored from rfl, htarget] at hends
      unfold PassEnds at hends ⊢
      rwa [hstalls] at hends

theorem next_of_blocked {stall : Stall} {page : TopicCatchup} (hroom : 0 < limits.records)
    (hpage : b.topicRecordsSince limits s.frontier s.stored = .ok page) (hd : Delivered b s)
    (hb : Blocked b s stall) (hmissing : stall.record ∉ s.consumed) :
    ∃ d rest, page.records = b.record d :: rest ∧
      (d = stall.record ∨ d ∉ stall.target.upTo ∧ b.key d < b.key stall.record) := by
  have hread := topicRecordsSince_spec hpage
  have hpending : stall.record ∈ pending (progressOf s.stored) (targetOf s.stored s.frontier) :=
    ⟨hb.target hb.within, fun hp => hmissing ((hd.progress _).mpr hp)⟩
  cases hrecords : page.records with
  | nil =>
    have hdone := hread.progress hroom hrecords
    have hmore := hread.more.not.mp (by simp [hdone])
    rw [hrecords] at hmore
    have hempty : pending (progressOf s.stored) (targetOf s.stored s.frontier) = ∅ := by
      simpa [consume] using hmore
    rw [hempty] at hpending
    cases hpending
  | cons r rest =>
    have hleading := hread.leading
    rw [hrecords, map_cons] at hleading
    refine ⟨r.dot, rest, ?_, ?_⟩
    · rw [← hread.content r (by simp [hrecords])]
    by_cases heq : r.dot = stall.record
    · exact .inl heq
    · have hlt := hleading.head_lt hpending (Ne.symm heq)
      have hnot := not_mem_consumed hd (hleading.mem r.dot mem_cons_self)
      refine .inr ⟨fun hold => ?_, hlt⟩
      exact hlt.asymm (hb.first hmissing _ hold hnot heq)

theorem reconcilePass_eq {frontiers : ℕ → VectorClock} {fuel : ℕ} (hc : Cursored b s) :
    reconcilePass env limits topic b frontiers fuel s =
      reconcilePages env limits topic b frontiers fuel 1 s := by
  have hstored : (s.stored.map fun c =>
      (b.restartCursor (frontiers 0) (env.localActor topic) c).getD c) = s.stored := by
    cases hs : s.stored with
    | none => rfl
    | some c =>
      have hnone : b.restartCursor (frontiers 0) (env.localActor topic) c = none :=
        if_pos (.inr (.inl (hc.branch c hs).1))
      rw [Option.map_some, hnone]
      rfl
  unfold reconcilePass
  rw [hstored]

/-! ## Exactly once, in causal order -/

/-- **What a run hands over**: every record once and after its dependencies (`delivered`). A record
that a pass stalled at was not consumed by then (`fresh`). What is consumed between the stall and the
record was not in the failed pass's target and sorts before it (`between`), and until the record is
consumed the next page starts with it or with such an operation (`next`). Every pass ends (`pass`). -/
structure HandedOver (env : TopicEnv) (limits : PageLimits) (topic : TopicId) (b : TopicBranch)
    (s : CatchupRun) : Prop where
  delivered : Delivered b s
  fresh : ∀ stall ∈ s.stalls, stall.record ∉ s.consumed.take stall.consumed
  between : ∀ stall ∈ s.stalls,
    ∀ e ∈ (s.consumed.drop stall.consumed).takeWhile (· ≠ stall.record),
      e ∉ stall.target.upTo ∧ b.key e < b.key stall.record
  next : ∀ stall ∈ s.stalls, stall.record ∉ s.consumed →
    ∃ page d rest, b.topicRecordsSince limits s.frontier s.stored = .ok page ∧
      page.records = b.record d :: rest ∧
      (d = stall.record ∨ d ∉ stall.target.upTo ∧ b.key d < b.key stall.record)
  pass : ∀ frontiers, Growing b s frontiers →
    ∃ fuel s', reconcilePass env limits topic b frontiers fuel s = some (.ok s') ∧
      Reachable (catchup env limits topic b) anyStep s' ∧
      PassEnds s s' (targetOf s.stored (frontiers 1))

/-- For every branch of operations and every page size that an operation fits in: in every run,
records are consumed exactly once and after what they depend on, a pass consumes all it reads up
to unless it stalls, and a record that stalled goes before all else that its pass read up to. -/
theorem catchup_exactly_once {env : TopicEnv} {limits : PageLimits} {topic : TopicId}
    {b : TopicBranch} {s : CatchupRun} (hroom : 0 < limits.records)
    (hfits : ∀ d, (b.op d).bytes ≤ limits.bytes)
    (hs : Reachable (catchup env limits topic b) anyStep s) :
    HandedOver env limits topic b s := by
  obtain ⟨hdelivered, hcursored, hblocked⟩ := handoverInvariant_of_reachable hs
  refine ⟨hdelivered, fun stall hstall => (hblocked stall hstall).fresh,
    fun stall hstall => (hblocked stall hstall).between, fun stall hstall hmissing => ?_,
    fun frontiers hgrow => ?_⟩
  · obtain ⟨page, hpage⟩ := exists_page hfits hcursored
    obtain ⟨d, rest, hrecords, hfirst⟩ :=
      next_of_blocked hroom hpage hdelivered (hblocked stall hstall) hmissing
    exact ⟨page, d, rest, hpage, hrecords, hfirst⟩
  · have hstart : s.frontier.upTo ⊆ (frontiers 1).upTo := hgrow.start.trans (hgrow.next 0)
    obtain ⟨fuel, s', hpages, hreach, hends⟩ :=
      exists_reconcilePages hroom hfits hgrow.next hgrow.closed hs hstart
    exact ⟨fuel, s', (reconcilePass_eq hcursored).trans hpages, hreach, hends⟩

/-- Every actor writes on its own: an operation of the second actor names a graph, the others are
control operations. -/
def separateWriters (bytes : Nat) : TopicBranch where
  epoch := 1
  genesis := 0
  id d := BitVec.ofNat 256 (2 * d.counter) + d.actor
  op d :=
    { parents := (if 1 < d.counter then [⟨d.actor, d.counter - 1⟩] else []).map fun e : Dot =>
        BitVec.ofNat 256 (2 * e.counter) + e.actor
      author := d.actor
      opMeta := ⟨d.actor, d.counter, .new⟩
      generation := d.counter
      payload := if d.actor = 2 then .event (.mutation sampleGraph []) else .control
      bytes := bytes }
  parents d := if 1 < d.counter then [⟨d.actor, d.counter - 1⟩] else []
  named d := rfl
  positioned d := ⟨rfl, rfl⟩
  older d e he := by
    split at he
    · obtain rfl := List.mem_singleton.mp he
      show d.counter - 1 < d.counter
      omega
    · cases he
  previous d hd := by simp [hd]

theorem separateWriters_closed (bytes : Nat) (c : VectorClock) :
    (separateWriters bytes).Closed c := by
  rintro d ⟨hpos, hle⟩ e he
  unfold TopicBranch.DependsOn separateWriters at he
  dsimp only at he
  split at he
  · obtain rfl := mem_singleton.mp he
    constructor <;> dsimp only <;> omega
  · cases he

/-- The graph has another topic, so its records stall. -/
def otherTopicNode : TopicNode := { TopicNode.empty with topicOf := fun _ => some 9 }

def stalledRun : CatchupRun where
  node := otherTopicNode
  stored := none
  frontier := VectorClock.new.advance 2 1
  consumed := []
  stalls := []

/-- A round, if it can be run. -/
def CatchupRun.nextPage (env : TopicEnv) (limits : PageLimits) (topic : TopicId) (b : TopicBranch)
    (s : CatchupRun) : CatchupRun :=
  match reconcilePage env limits topic b s.frontier s.node s.stored with
  | .ok out => s.afterPage out
  | .error _ => s

theorem reachable_nextPage {env : TopicEnv} {limits : PageLimits} {topic : TopicId}
    {b : TopicBranch} {s : CatchupRun} (hs : Reachable (catchup env limits topic b) anyStep s) :
    Reachable (catchup env limits topic b) anyStep (s.nextPage env limits topic b) := by
  unfold CatchupRun.nextPage
  split
  · rename_i out hpage
    exact .step .page hs trivial ⟨out, hpage, rfl⟩
  · exact hs

/-- The first pass stalls. -/
def retriedRun : CatchupRun := stalledRun.nextPage sampleTopicEnv .topic 7 (separateWriters 1)

/-- An operation of the first actor arrives after the stall, and another pass runs. -/
def overtakenRun : CatchupRun :=
  CatchupRun.nextPage sampleTopicEnv .topic 7 (separateWriters 1)
    { retriedRun with frontier := retriedRun.frontier.advance 1 1 }

theorem reachable_overtakenRun :
    Reachable (catchup sampleTopicEnv .topic 7 (separateWriters 1)) anyStep overtakenRun := by
  have hstart : Reachable (catchup sampleTopicEnv .topic 7 (separateWriters 1)) anyStep stalledRun :=
    .init ⟨rfl, separateWriters_closed _ _, rfl, rfl⟩
  have hstalled : Reachable (catchup sampleTopicEnv .topic 7 (separateWriters 1)) anyStep retriedRun :=
    reachable_nextPage hstart
  refine reachable_nextPage (.step (.receive (retriedRun.frontier.advance 1 1)) hstalled trivial
    ⟨upTo_subset_iff.mpr fun a => ?_, separateWriters_closed _ _, rfl⟩)
  rw [last_advance]
  split
  · rename_i heq
    rw [heq]
    exact le_max_left _ _
  · exact le_rfl

/-- Two passes have stalled at the second actor's record, and one operation was consumed since the
first of them. -/
theorem catchup_exactly_once_separate :
    overtakenRun.consumed = [⟨1, 1⟩] ∧
      overtakenRun.stalls.map (fun stall => (stall.record, stall.consumed)) =
        [(⟨2, 1⟩, 1), (⟨2, 1⟩, 0)] ∧
      HandedOver sampleTopicEnv .topic 7 (separateWriters 1) overtakenRun := by
  refine ⟨by decide +kernel, by decide +kernel, ?_⟩
  exact catchup_exactly_once (by decide) (fun _ => by show 1 ≤ _; decide) reachable_overtakenRun

/-- The record of the second actor stalls, and the next pass consumes the operation of the first
actor before it. And no page can be read when its first operation is larger than a page. -/
theorem stalled_record_overtaken :
    Reachable (catchup sampleTopicEnv .topic 7 (separateWriters 1)) anyStep overtakenRun ∧
    overtakenRun.consumed = [⟨1, 1⟩] ∧
    overtakenRun.stalls.map (fun stall => (stall.record, stall.consumed)) =
      [(⟨2, 1⟩, 1), (⟨2, 1⟩, 0)] ∧
    (separateWriters (8 * 1024 * 1024 + 1)).topicRecordsSince .topic
      (VectorClock.new.advance 1 1) none = .error (.syncCapacity 3 (8 * 1024 * 1024)) :=
  ⟨reachable_overtakenRun, by decide +kernel, by decide +kernel, by decide +kernel⟩

end Craqle
