import Craqle.Lib.Ancestry
import Craqle.Replication.Topic

/-! # Reading history in pages

`history_log` walks the operations of a topic from some heads, newest first, and returns at most
`limit` of them with the heads of the next page. A page fails when it has more heads than its
limit or more bytes than it may have. The walk keeps a heap of what it still has to visit, ordered
by generation and then by identifier, and a set of what it has visited; the set is forgotten
between pages.

The pages of a log together are one walk of the ancestors of its heads (`history_log_complete`).
-/

namespace Craqle

open List
open Ancestry (closure remaining Walk Older)

/-- What an operation of a topic carries. -/
inductive TopicPayload where
  | event (event : GraphEvent)
  | otherType
  | malformed
  | control
  deriving DecidableEq

/-- A signed operation of a topic, with the size of its encoding. -/
structure TopicOp where
  parents : List OpId
  author : BitVec 256
  opMeta : OpMeta
  generation : Nat
  payload : TopicPayload
  bytes : Nat
  deriving DecidableEq

/-- What a history is read from: the operations of the topic, whether the commit info of an event is
within the local bounds (`check_commit`), and the records that the store has rejected. -/
structure HistorySource where
  op : OpId → Option TopicOp
  checkCommit : OpId → Bool
  rejected : OpId → Bool

inductive PageError where
  | invalidRequest
  | operationLimit
  | byteLimit
  | unavailable (id : OpId)
  | invalidEvent (reason : Text)
  deriving DecidableEq

structure HistoryEntry where
  id : OpId
  op : TopicOp
  record : Option EventRecord
  rejected : Bool
  deriving DecidableEq

/-- One operation with its record, if it has one that decodes and whose commit info is accepted. -/
def HistorySource.historyEntry (source : HistorySource) (id : OpId) : Option HistoryEntry :=
  (source.op id).map fun op =>
    match op.payload with
    | .event event =>
      if source.checkCommit id then ⟨id, op, some ⟨id, op.opMeta, event⟩, false⟩
      else ⟨id, op, none, true⟩
    | .control => ⟨id, op, none, false⟩
    | .otherType | .malformed => ⟨id, op, none, true⟩

def HistorySource.ofGraph (source : HistorySource) (graph : GraphId) (entry : HistoryEntry) :
    HistoryEntry :=
  let foreign := entry.record.any fun record => record.event.graph ≠ graph
  { entry with
    record := if foreign then none else entry.record
    rejected := entry.rejected || foreign || source.rejected entry.id }

/-! ## The heap -/

/-- Operations are visited by generation, then by identifier. -/
def opRank (e : Nat × OpId) : ℕ ×ₗ ℕ := toLex (e.1, e.2.toNat)

/-- The greatest entry is the first one. -/
abbrev OpHeap := List (Nat × OpId)

def OpHeap.push (heap : OpHeap) (e : Nat × OpId) : OpHeap :=
  List.orderedInsert (fun a b => opRank b ≤ opRank a) e heap

def OpHeap.ids (heap : OpHeap) : List OpId := List.map Prod.snd heap

/-- Push an operation that the topic has. -/
def HistorySource.pushHead (source : HistorySource) (heap : OpHeap) (id : OpId) :
    Except PageError OpHeap :=
  match source.op id with
  | none => .error (.unavailable id)
  | some op => .ok (heap.push (op.generation, id))

def HistorySource.pushParent (source : HistorySource) (level : Nat) (heap : OpHeap) (id : OpId) :
    Except PageError OpHeap :=
  match source.op id with
  | none => .error (.unavailable id)
  | some op =>
    if level ≤ op.generation then
      .error (.invalidEvent "history parent is not older than its child".toList)
    else .ok (heap.push (op.generation, id))

/-! ## A page -/

structure TopicHistory where
  graph : GraphId
  heads : List OpId
  limit : Nat
  maxBytes : Nat
  deriving DecidableEq

/-- Where a page stops: its entries, and the heap and the visited operations of its walk. -/
structure PageWalk where
  entries : List HistoryEntry
  heap : OpHeap
  seen : List OpId

/-- Visit up to `room` operations. Heap entries that are visited already are passed over. -/
def HistorySource.walkPage (source : HistorySource) (query : TopicHistory) :
    (room : Nat) → OpHeap → (seen : List OpId) → (bytes : Nat) → Except PageError PageWalk
  | 0, heap, seen, _ => .ok ⟨[], heap, seen⟩
  | room + 1, heap, seen, bytes =>
    match List.dropWhile (fun e => decide (e.2 ∈ seen)) heap with
    | [] => .ok ⟨[], [], seen⟩
    | (level, id) :: heap =>
      match source.historyEntry id with
      | none => .error (.unavailable id)
      | some entry =>
        if entry.op.generation ≠ level then
          .error (.invalidEvent "history operation generation differs from its position".toList)
        else if query.maxBytes < bytes + entry.op.bytes then .error .byteLimit
        else
          let parents := entry.op.parents.filter fun p => p ∉ id :: seen
          match parents.foldlM (source.pushParent level) heap with
          | .error e => .error e
          | .ok heap =>
            (source.walkPage query room heap (id :: seen) (bytes + entry.op.bytes)).map
              fun walk =>
                { walk with entries := source.ofGraph query.graph entry :: walk.entries }

/-- The identifiers of a list in ascending order, each once. -/
def sortIds (ids : List OpId) : List OpId := ids.dedup.insertionSort fun a b => a.toNat ≤ b.toNat

theorem mem_sortIds {ids : List OpId} {id : OpId} : id ∈ sortIds ids ↔ id ∈ ids := by
  rw [sortIds, mem_insertionSort, mem_dedup]

/-- Walks newest first by generation, so no page repeats an operation of an earlier page. -/
def HistorySource.historyPage (source : HistorySource) (query : TopicHistory) :
    Except PageError (List HistoryEntry × List OpId) :=
  let heads := sortIds query.heads
  if query.limit < heads.length then .error .operationLimit
  else
    match heads.foldlM source.pushHead [] with
    | .error e => .error e
    | .ok heap =>
      (source.walkPage query query.limit heap [] 0).map fun walk =>
        (walk.entries, sortIds (walk.heap.ids.filter fun id => id ∉ walk.seen))

/-- One signed operation of a log. -/
structure HistoryOperation where
  id : OpId
  parents : List OpId
  author : BitVec 256
  actor : ActorId
  sequence : Nat
  generation : Nat
  event : Option GraphEvent
  rejected : Bool
  deriving DecidableEq

def HistoryEntry.operation (entry : HistoryEntry) : HistoryOperation where
  id := entry.id
  parents := entry.op.parents
  author := entry.op.author
  actor := entry.op.opMeta.actor
  sequence := entry.op.opMeta.actorSeq
  generation := entry.op.generation
  event := if entry.rejected then none else entry.record.map EventRecord.event
  rejected := entry.rejected

structure HistoryPage where
  operations : List HistoryOperation
  next : List OpId
  deriving DecidableEq

/-- Reads at most `limit` operations newest first. -/
def HistorySource.historyLog (source : HistorySource) (query : TopicHistory) :
    Except PageError HistoryPage :=
  if query.limit = 0 ∨ query.maxBytes = 0 then .error .invalidRequest
  else (source.historyPage query).map fun page => ⟨page.1.map HistoryEntry.operation, page.2⟩

/-- Follow the pages of a log to the end; `none` is a walk that needs more pages. -/
def HistorySource.followLog (source : HistorySource) :
    (pages : Nat) → TopicHistory → Option (Except PageError (List HistoryOperation))
  | 0, _ => none
  | pages + 1, query =>
    match source.historyLog query with
    | .error e => some (.error e)
    | .ok page =>
      if page.next = [] then some (.ok page.operations)
      else
        (source.followLog pages { query with heads := page.next }).map fun rest =>
          rest.map fun operations => page.operations ++ operations

/-! ## Ancestors -/

namespace HistorySource

variable (source : HistorySource)

def parents (id : OpId) : List OpId := ((source.op id).map TopicOp.parents).getD []

def rank (id : OpId) : ℕ ×ₗ ℕ := opRank (((source.op id).map TopicOp.generation).getD 0, id)

def ancestors (heads : List OpId) : Set OpId := closure source.parents heads

/-- The topic is a graph in which every operation has a greater generation than its parents. -/
structure Causal : Prop where
  parents : ∀ id op, source.op id = some op → ∀ p ∈ op.parents,
    ∃ q, source.op p = some q ∧ q.generation < op.generation

variable {source}

theorem rank_injective : Function.Injective source.rank := by
  intro a b h
  have hsnd : a.toNat = b.toNat := congrArg (fun r => (ofLex r).2) h
  exact BitVec.eq_of_toNat_eq hsnd

variable {id : OpId}

theorem rank_of_some {op : TopicOp} (h : source.op id = some op) :
    source.rank id = opRank (op.generation, id) := by
  simp [rank, h]

theorem mem_parents {p : OpId} {op : TopicOp} (h : source.op id = some op) :
    p ∈ source.parents id ↔ p ∈ op.parents := by
  simp [parents, h]

theorem Causal.older (h : source.Causal) : Older source.parents source.rank := by
  intro id p hp
  cases hop : source.op id with
  | none => simp [HistorySource.parents, hop] at hp
  | some op =>
    obtain ⟨q, hq, hlt⟩ := h.parents id op hop p ((mem_parents hop).mp hp)
    rw [rank_of_some hop, rank_of_some hq]
    exact Prod.Lex.toLex_lt_toLex.mpr (.inl hlt)

/-- Ancestors of operations that the topic has are operations that it has. -/
theorem Causal.known (h : source.Causal) {heads : List OpId}
    (hheads : ∀ id ∈ heads, (source.op id).isSome) (hid : id ∈ source.ancestors heads) :
    (source.op id).isSome := by
  obtain ⟨head, hhead, hpath⟩ := hid
  induction hpath with
  | refl => exact hheads head hhead
  | @tail a b _ hb ih =>
    obtain ⟨op, hop⟩ := Option.isSome_iff_exists.mp ih
    obtain ⟨q, hq, _⟩ := h.parents a op hop b ((mem_parents hop).mp hb)
    exact Option.isSome_iff_exists.mpr ⟨q, hq⟩

end HistorySource

open HistorySource

/-! ## The heap holds what it was given -/

/-- A heap in order, whose entries are operations of the topic at their generation. -/
structure OpHeap.Of (source : HistorySource) (heap : OpHeap) : Prop where
  sorted : List.Pairwise (fun a b => opRank b ≤ opRank a) heap
  known : ∀ e ∈ heap, ∃ op, source.op e.2 = some op ∧ op.generation = e.1

namespace OpHeap

variable {source : HistorySource} {heap heap' : OpHeap}

theorem mem_push (heap : OpHeap) (e e' : Nat × OpId) :
    e' ∈ heap.push e ↔ e' = e ∨ e' ∈ heap := by
  simp [push]

theorem mem_ids_push (heap : OpHeap) (e : Nat × OpId) (id : OpId) :
    id ∈ (heap.push e).ids ↔ id = e.2 ∨ id ∈ heap.ids := by
  simp only [ids, mem_map, mem_push]
  constructor
  · rintro ⟨e', rfl | he', rfl⟩
    · exact .inl rfl
    · exact .inr ⟨e', he', rfl⟩
  · rintro (rfl | ⟨e', he', rfl⟩)
    · exact ⟨e, .inl rfl, rfl⟩
    · exact ⟨e', .inr he', rfl⟩

theorem Of.nil : OpHeap.Of source [] := ⟨List.Pairwise.nil, nofun⟩

theorem Of.push (h : heap.Of source) {id : OpId} {op : TopicOp} (hop : source.op id = some op) :
    (heap.push (op.generation, id)).Of source := by
  have htotal : Std.Total fun a b : Nat × OpId => opRank b ≤ opRank a :=
    ⟨fun a b => le_total (opRank b) (opRank a)⟩
  have htrans : IsTrans (Nat × OpId) fun a b => opRank b ≤ opRank a :=
    ⟨fun _ _ _ hab hbc => hbc.trans hab⟩
  refine ⟨List.Pairwise.orderedInsert _ _ h.sorted, fun e he => ?_⟩
  rcases (mem_push heap _ e).mp he with rfl | he
  · exact ⟨op, hop, rfl⟩
  · exact h.known e he

theorem Of.rank_eq (h : heap.Of source) {e : Nat × OpId} (he : e ∈ heap) :
    source.rank e.2 = opRank e := by
  obtain ⟨op, hop, hgen⟩ := h.known e he
  rw [rank_of_some hop, hgen]

theorem Of.sublist (h : heap.Of source) (hsub : List.Sublist heap' heap) : heap'.Of source :=
  ⟨h.sorted.sublist hsub, fun e he => h.known e (hsub.subset he)⟩

/-- The first entry is the greatest. -/
theorem Of.rank_le {e : Nat × OpId} (h : OpHeap.Of source (e :: heap)) {id : OpId}
    (hid : id ∈ OpHeap.ids (e :: heap)) : source.rank id ≤ source.rank e.2 := by
  obtain ⟨e', he', rfl⟩ := mem_map.mp hid
  rw [h.rank_eq he', h.rank_eq mem_cons_self]
  rcases mem_cons.mp he' with rfl | he'
  · exact le_rfl
  · exact (pairwise_cons.mp h.sorted).1 e' he'

/-- Pushing operations that the topic has succeeds, and adds them. -/
theorem Of.pushAll (h : heap.Of source) {push : OpHeap → OpId → Except HistoryError OpHeap}
    {ids : List OpId} (hpush : ∀ id ∈ ids, ∃ op, source.op id = some op ∧
      ∀ heap, push heap id = .ok (heap.push (op.generation, id))) :
    ∃ heap', ids.foldlM push heap = .ok heap' ∧ heap'.Of source ∧
      ∀ id, id ∈ heap'.ids ↔ id ∈ ids ∨ id ∈ heap.ids := by
  induction ids generalizing heap with
  | nil => exact ⟨heap, rfl, h, fun id => by simp⟩
  | cons first ids ih =>
    obtain ⟨op, hop, hstep⟩ := hpush first mem_cons_self
    obtain ⟨heap', hok, hof, hmem⟩ := ih (h.push hop)
      fun id hid => hpush id (mem_cons_of_mem _ hid)
    refine ⟨heap', Fallible.foldlM_cons_eq_ok.mpr ⟨_, hstep heap, hok⟩, hof, fun id => ?_⟩
    rw [hmem, mem_ids_push, mem_cons]
    tauto

end OpHeap

/-! ## A page is a leading part of the ancestors -/

variable {source : HistorySource} {query : TopicHistory}

def HistorySource.newestFirst (source : HistorySource) (id : OpId) : (ℕ ×ₗ ℕ)ᵒᵈ :=
  OrderDual.toDual (source.rank id)

/-- The size of some operations. -/
def HistorySource.totalBytes (source : HistorySource) (ids : List OpId) : Nat :=
  (ids.map fun id => ((source.op id).map TopicOp.bytes).getD 0).sum

def HistorySource.entryOf (source : HistorySource) (graph : GraphId) (id : OpId) :
    Option HistoryEntry :=
  (source.historyEntry id).map (source.ofGraph graph)

structure PageVisited (source : HistorySource) (query : TopicHistory) (left : Set OpId) (room : Nat)
    (walk : PageWalk) : Prop where
  leading : Leading source.newestFirst left (walk.entries.map HistoryEntry.id)
  content : ∀ entry ∈ walk.entries, source.entryOf query.graph entry.id = some entry
  under : Walk source.parents source.rank walk.heap.ids walk.seen
  left_eq : remaining source.parents walk.heap.ids walk.seen =
    left \ {id | id ∈ walk.entries.map HistoryEntry.id}
  full : walk.entries.length = room ∨ walk.heap.ids = []

/-- Some operations of those left are too large for a page. -/
def TooLarge (source : HistorySource) (query : TopicHistory) (left : Set OpId) (room bytes : Nat) :
    Prop :=
  ∃ ids : List OpId, ids.Nodup ∧ (∀ id ∈ ids, id ∈ left) ∧ ids.length ≤ room ∧
    query.maxBytes < bytes + source.totalBytes ids

theorem exists_historyEntry {id : OpId} {op : TopicOp} (hop : source.op id = some op) :
    ∃ entry, source.historyEntry id = some entry ∧ entry.id = id ∧ entry.op = op := by
  unfold historyEntry
  rw [hop, Option.map_some]
  cases op.payload with
  | event event => cases source.checkCommit id <;> exact ⟨_, rfl, rfl, rfl⟩
  | _ => exact ⟨_, rfl, rfl, rfl⟩

/-- Visit one more operation before the others. -/
theorem PageVisited.cons {left : Set OpId} {room : Nat} {walk : PageWalk} {entry : HistoryEntry}
    (hfirst : Leading source.newestFirst left [entry.id])
    (hentry : source.entryOf query.graph entry.id = some entry)
    (h : PageVisited source query (left \ {entry.id}) room walk) :
    PageVisited source query left (room + 1) { walk with entries := entry :: walk.entries } where
  leading := hfirst.append (by simpa using h.leading)
  content := by
    intro e he
    rcases mem_cons.mp he with rfl | he
    · exact hentry
    · exact h.content e he
  under := h.under
  left_eq := by
    rw [h.left_eq]
    ext id
    simp
    tauto
  full := by
    rcases h.full with hfull | hempty
    · exact .inl (by simp [hfull])
    · exact .inr hempty

theorem TooLarge.cons {left : Set OpId} {room bytes : Nat} {id : OpId} {op : TopicOp}
    (hop : source.op id = some op) (hid : id ∈ left)
    (h : TooLarge source query (left \ {id}) room (bytes + op.bytes)) :
    TooLarge source query left (room + 1) bytes := by
  obtain ⟨ids, hnodup, hleft, hlength, hbytes⟩ := h
  refine ⟨id :: ids, nodup_cons.mpr ⟨fun hmem => (hleft id hmem).2 rfl, hnodup⟩, ?_, ?_, ?_⟩
  · intro id' hid'
    rcases mem_cons.mp hid' with rfl | hid'
    · exact hid
    · exact (hleft id' hid').1
  · simpa using hlength
  · have htotal : source.totalBytes (id :: ids) = op.bytes + source.totalBytes ids := by
      simp [totalBytes, hop]
    omega

theorem walkPage_spec (hcausal : source.Causal) {room bytes : Nat} {heap : OpHeap}
    {seen : List OpId} (hof : heap.Of source)
    (hwalk : Walk source.parents source.rank heap.ids seen) :
    (∃ walk, source.walkPage query room heap seen bytes = .ok walk ∧
      PageVisited source query (remaining source.parents heap.ids seen) room walk) ∨
    (source.walkPage query room heap seen bytes = .error .byteLimit ∧
      TooLarge source query (remaining source.parents heap.ids seen) room bytes) := by
  induction room generalizing heap seen bytes with
  | zero =>
    refine .inl ⟨⟨[], heap, seen⟩, rfl, Leading.nil, nofun, hwalk, ?_, .inl rfl⟩
    simp
  | succ room ih =>
    have hsub : List.Sublist (heap.dropWhile fun e => decide (e.2 ∈ seen)) heap :=
      dropWhile_sublist _
    have hkept : ∀ id ∈ heap.ids,
        id ∈ OpHeap.ids (heap.dropWhile fun e => decide (e.2 ∈ seen)) ∨ id ∈ seen := by
      intro id hid
      obtain ⟨e, he, rfl⟩ := mem_map.mp hid
      rw [← takeWhile_append_dropWhile (p := fun e => decide (e.2 ∈ seen)) (l := heap)] at he
      rcases mem_append.mp he with he | he
      · exact .inr (by simpa using mem_takeWhile_imp he)
      · exact .inl (mem_map.mpr ⟨e, he, rfl⟩)
    obtain ⟨hwalk', hremaining⟩ := hwalk.shrink
      (fun id hid => (hsub.map Prod.snd).subset hid) hkept
    have hof' := hof.sublist hsub
    rw [← hremaining]
    unfold walkPage
    cases hdrop : heap.dropWhile fun e => decide (e.2 ∈ seen) with
    | nil =>
      -- all that is pending was visited, so nothing is left
      rw [hdrop] at hwalk'
      refine .inl ⟨⟨[], [], seen⟩, rfl, Leading.nil, nofun, hwalk', ?_, .inr rfl⟩
      show remaining source.parents [] seen = remaining source.parents [] seen \ {id | id ∈ []}
      simp
    | cons e rest =>
      obtain ⟨level, id⟩ := e
      rw [hdrop] at hwalk' hof'
      have hfresh : id ∉ seen := by
        have hnot := head_dropWhile_not (fun e : Nat × OpId => decide (e.2 ∈ seen))
          (l := heap) (by rw [hdrop]; exact cons_ne_nil _ _)
        simpa [hdrop] using hnot
      obtain ⟨op, hop, hlevel⟩ : ∃ op, source.op id = some op ∧ op.generation = level :=
        hof'.known _ mem_cons_self
      obtain ⟨entry, hentry, hid, hentryop⟩ := exists_historyEntry hop
      have hgreatest : ∀ y ∈ OpHeap.ids ((level, id) :: rest), source.rank y ≤ source.rank id :=
        fun y hy => hof'.rank_le hy
      have hpending : id ∈ OpHeap.ids ((level, id) :: rest) := mem_cons_self
      have hfirst := Walk.leading_singleton hcausal.older rank_injective
        hpending hfresh hgreatest
      have hparents : ∀ p ∈ op.parents.filter fun p => p ∉ id :: seen, ∃ q, source.op p = some q ∧
          ∀ heap, source.pushParent level heap p = .ok (heap.push (q.generation, p)) := by
        intro p hp
        obtain ⟨q, hq, hlt⟩ := hcausal.parents id op hop p (mem_filter.mp hp).1
        exact ⟨q, hq, fun heap => by simp [pushParent, hq, Nat.not_le.mpr (hlevel ▸ hlt)]⟩
      obtain ⟨heap', hpush, hof'', hmem⟩ := (hof'.sublist (sublist_cons_self _ _)).pushAll hparents
      obtain ⟨hwalk'', hleft⟩ : Walk source.parents source.rank heap'.ids (id :: seen) ∧
          remaining source.parents heap'.ids (id :: seen) =
            remaining source.parents (OpHeap.ids ((level, id) :: rest)) seen \ {id} := by
        refine hwalk'.step hcausal.older hpending hgreatest ?_ ?_ ?_
        · intro y hy
          rcases (hmem y).mp hy with hy | hy
          · exact .inr ((mem_parents hop).mpr (mem_filter.mp hy).1)
          · exact .inl (mem_cons_of_mem _ hy)
        · intro y hy
          rcases mem_cons.mp hy with rfl | hy
          · exact .inr mem_cons_self
          · exact .inl ((hmem y).mpr (.inr hy))
        · intro p hp
          by_cases hseen : p ∈ id :: seen
          · exact .inr hseen
          · refine .inl ((hmem p).mpr (.inl (mem_filter.mpr ⟨?_, by simpa using hseen⟩)))
            exact (mem_parents hop).mp hp
      simp only [hentry, hentryop, hlevel, ne_eq, not_true_eq_false, if_false, hpush]
      by_cases hbytes : query.maxBytes < bytes + op.bytes
      · refine .inr ⟨if_pos hbytes, [id], nodup_singleton _, ?_, by simp, ?_⟩
        · intro id' hid'
          rw [mem_singleton.mp hid']
          exact hfirst.mem id mem_cons_self
        · simpa [totalBytes, hop] using hbytes
      rw [if_neg hbytes]
      have hofGraph : (source.ofGraph query.graph entry).id = id := hid
      rcases ih hof'' hwalk'' with ⟨walk, hok, hvisited⟩ | ⟨hfail, hlarge⟩
      · rw [hok]
        rw [hleft] at hvisited
        refine .inl ⟨_, rfl, PageVisited.cons (hofGraph.symm ▸ hfirst) ?_
          (hofGraph.symm ▸ hvisited)⟩
        rw [hofGraph, entryOf, hentry]
        rfl
      · rw [hfail]
        rw [hleft] at hlarge
        exact .inr ⟨rfl, hlarge.cons hop (hfirst.mem id mem_cons_self)⟩

theorem historyPage_spec (hcausal : source.Causal)
    (hheads : ∀ id ∈ query.heads, (source.op id).isSome)
    (hlimit : query.heads.dedup.length ≤ query.limit) :
    (∃ entries next, source.historyPage query = .ok (entries, next) ∧
      Leading source.newestFirst (source.ancestors query.heads) (entries.map HistoryEntry.id) ∧
      (∀ entry ∈ entries, source.entryOf query.graph entry.id = some entry) ∧
      source.ancestors next =
        source.ancestors query.heads \ {id | id ∈ entries.map HistoryEntry.id} ∧
      (entries.length = query.limit ∨ next = [])) ∨
    (source.historyPage query = .error .byteLimit ∧
      TooLarge source query (source.ancestors query.heads) query.limit 0) := by
  have hknown : ∀ id ∈ sortIds query.heads, ∃ op, source.op id = some op ∧
      ∀ heap, source.pushHead heap id = .ok (heap.push (op.generation, id)) := by
    intro id hid
    obtain ⟨op, hop⟩ := Option.isSome_iff_exists.mp (hheads id (mem_sortIds.mp hid))
    exact ⟨op, hop, fun heap => by simp [pushHead, hop]⟩
  obtain ⟨heap, hpush, hof, hmem⟩ := (OpHeap.Of.nil).pushAll hknown
  have hstart : remaining source.parents heap.ids [] = source.ancestors query.heads := by
    have hids : ∀ id, id ∈ heap.ids ↔ id ∈ query.heads := by
      intro id
      rw [hmem, mem_sortIds]
      simp [OpHeap.ids]
    rw [ancestors, ← Ancestry.closure_congr hids]
    simp [remaining]
  have hlength : (sortIds query.heads).length = query.heads.dedup.length := length_insertionSort _ _
  unfold historyPage
  simp only [hlength, if_neg (Nat.not_lt.mpr hlimit), hpush]
  have hspec := @walkPage_spec source query hcausal query.limit 0 heap [] hof (.start _)
  rw [hstart] at hspec
  rcases hspec with ⟨walk, hok, hvisited⟩ | ⟨hfail, hlarge⟩
  · rw [hok]
    refine .inl ⟨_, _, rfl, hvisited.leading, hvisited.content, ?_, ?_⟩
    · rw [← hvisited.left_eq]
      exact hvisited.under.remaining_eq hcausal.older rank_injective
        fun id => by simp [mem_sortIds]
    · rcases hvisited.full with hfull | hempty
      · exact .inl hfull
      · exact .inr (by simp [hempty, sortIds])
  · rw [hfail]
    exact .inr ⟨rfl, hlarge⟩

/-! ## The pages of a log -/

/-- The heads of the pages that are requested when a log is followed. -/
inductive HistorySource.Requests (source : HistorySource) (query : TopicHistory) : List OpId → Prop
  | first : source.Requests query query.heads
  | next {heads : List OpId} {page : HistoryPage} : source.Requests query heads →
      source.historyLog { query with heads := heads } = .ok page → page.next ≠ [] →
      source.Requests query page.next

theorem Requests.of_next {page : HistoryPage} (hpage : source.historyLog query = .ok page)
    (hnext : page.next ≠ []) {heads : List OpId}
    (h : source.Requests { query with heads := page.next } heads) : source.Requests query heads := by
  induction h with
  | first => exact .next .first hpage hnext
  | next _ hlog hmore ih => exact .next ih hlog hmore

/-- What a log that was followed to the end returns. -/
structure LogComplete (source : HistorySource) (graph : GraphId) (heads : List OpId)
    (operations : List HistoryOperation) : Prop where
  leading : Leading source.newestFirst (source.ancestors heads) (operations.map HistoryOperation.id)
  all : ∀ id ∈ source.ancestors heads, id ∈ operations.map HistoryOperation.id
  content : ∀ o ∈ operations, (source.entryOf graph o.id).map HistoryEntry.operation = some o

theorem entryOf_operation {graph : GraphId} {entries : List HistoryEntry}
    (h : ∀ entry ∈ entries, source.entryOf graph entry.id = some entry) :
    ∀ o ∈ entries.map HistoryEntry.operation,
      (source.entryOf graph o.id).map HistoryEntry.operation = some o := by
  intro o ho
  obtain ⟨entry, hentry, rfl⟩ := mem_map.mp ho
  show (source.entryOf graph entry.id).map HistoryEntry.operation = _
  rw [h entry hentry]
  rfl

theorem rank_of_content {graph : GraphId} {o : HistoryOperation}
    (h : (source.entryOf graph o.id).map HistoryEntry.operation = some o) :
    source.rank o.id = opRank (o.generation, o.id) := by
  cases hop : source.op o.id with
  | none => simp [entryOf, historyEntry, hop] at h
  | some op =>
    obtain ⟨entry, hentry, _, hentryop⟩ := exists_historyEntry hop
    rw [entryOf, hentry] at h
    have hgeneration : entry.op.generation = o.generation :=
      congrArg HistoryOperation.generation (Option.some.inj h)
    rw [rank_of_some hop, ← hgeneration, hentryop]

theorem followLog_spec (hcausal : source.Causal) (hlimit : 0 < query.limit)
    (hmax : 0 < query.maxBytes) {pages : Nat} (hheads : ∀ id ∈ query.heads, (source.op id).isSome)
    (hpages : ∀ heads, source.Requests query heads → heads.dedup.length ≤ query.limit)
    (hcard : (source.ancestors query.heads).ncard < pages) :
    (∃ operations, source.followLog pages query = some (.ok operations) ∧
      LogComplete source query.graph query.heads operations) ∨
    (source.followLog pages query = some (.error .byteLimit) ∧
      TooLarge source query (source.ancestors query.heads) query.limit 0) := by
  induction pages generalizing query with
  | zero => exact absurd hcard (Nat.not_lt_zero _)
  | succ pages ih =>
    have hfinite : (source.ancestors query.heads).Finite := hcausal.older.closure_finite _
    have hids : ∀ entries : List HistoryEntry,
        (entries.map HistoryEntry.operation).map HistoryOperation.id =
          entries.map HistoryEntry.id := fun entries => by
      rw [map_map]
      rfl
    have hzero : ¬ (query.limit = 0 ∨ query.maxBytes = 0) := by omega
    unfold followLog
    rcases historyPage_spec hcausal hheads (hpages _ .first) with
      ⟨entries, next, hpage, hleading, hcontent, hrest, hfull⟩ | ⟨hfail, hlarge⟩
    · have hlog : source.historyLog query = .ok ⟨entries.map HistoryEntry.operation, next⟩ := by
        rw [historyLog, if_neg hzero, hpage]
        rfl
      rw [hlog]
      by_cases hnext : next = []
      · refine .inl ⟨_, if_pos hnext, ?_, fun id hid => ?_, entryOf_operation hcontent⟩
        · rw [hids]
          exact hleading
        -- the ancestors of no heads are none
        rw [hids]
        by_contra hnot
        have hleft : id ∈ source.ancestors next := hrest ▸ ⟨hid, hnot⟩
        rw [hnext] at hleft
        obtain ⟨_, hmem, _⟩ := hleft
        cases hmem
      · have hsub : source.ancestors next ⊆ source.ancestors query.heads := hrest ▸ Set.sdiff_subset
        have hfewer : (source.ancestors next).ncard < (source.ancestors query.heads).ncard := by
          have hlength : entries.length = query.limit := hfull.resolve_right hnext
          obtain ⟨entry, hentry⟩ := exists_mem_of_length_pos (hlength ▸ hlimit)
          have hmem : entry.id ∈ entries.map HistoryEntry.id := mem_map_of_mem hentry
          refine Set.ncard_lt_ncard (Set.ssubset_iff_of_subset hsub |>.mpr
            ⟨entry.id, hleading.mem _ hmem, fun hin => ?_⟩) hfinite
          rw [hrest] at hin
          exact hin.2 hmem
        have hknown : ∀ id ∈ next, (source.op id).isSome :=
          fun id hid => hcausal.known hheads (hsub (Ancestry.subset_closure hid))
        have hlater : ∀ heads, source.Requests { query with heads := next } heads →
            heads.dedup.length ≤ query.limit :=
          fun heads hrequest => hpages heads (Requests.of_next hlog hnext hrequest)
        simp only [if_neg hnext]
        rcases @ih { query with heads := next } hlimit hmax hknown hlater
          (by show (source.ancestors next).ncard < pages; omega) with
          ⟨operations, hfollow, hcomplete⟩ | ⟨hfail, hlarge⟩
        · rw [hfollow]
          have hleading' : Leading source.newestFirst (source.ancestors next)
              (operations.map HistoryOperation.id) := hcomplete.leading
          refine .inl ⟨_, rfl, ?_, fun id hid => ?_, fun o ho => ?_⟩
          · rw [map_append, hids]
            exact hleading.append (hrest ▸ hleading')
          · rw [map_append, hids, mem_append]
            by_cases hmem : id ∈ entries.map HistoryEntry.id
            · exact .inl hmem
            · exact .inr (hcomplete.all id (hrest ▸ ⟨hid, hmem⟩))
          · rcases mem_append.mp ho with ho | ho
            · exact entryOf_operation hcontent o ho
            · exact hcomplete.content o ho
        · rw [hfail]
          obtain ⟨ids, hnodup, hleft, hbound⟩ := hlarge
          exact .inr ⟨rfl, ids, hnodup, fun id hid => hsub (hleft id hid), hbound⟩
    · have hlog : source.historyLog query = .error .byteLimit := by
        rw [historyLog, if_neg hzero, hfail]
        rfl
      rw [hlog]
      exact .inr ⟨rfl, hlarge⟩

/-- **History paging.** Following the pages of a log to the end visits every ancestor of the heads
exactly once, newest first also across pages, and the walk ends; or it ends with the byte limit,
which happens only if some operations that fit into a page by their number are too large for it. -/
theorem history_log_complete (hcausal : source.Causal)
    (hheads : ∀ id ∈ query.heads, (source.op id).isSome)
    (hbounds : 0 < query.limit ∧ 0 < query.maxBytes)
    (hpages : ∀ heads, source.Requests query heads → heads.dedup.length ≤ query.limit) :
    ∃ pages, (∃ operations, source.followLog pages query = some (.ok operations) ∧
        (operations.Pairwise fun a b =>
          opRank (b.generation, b.id) < opRank (a.generation, a.id)) ∧
        (∀ id, id ∈ operations.map HistoryOperation.id ↔ id ∈ source.ancestors query.heads) ∧
        ∀ o ∈ operations,
          (source.entryOf query.graph o.id).map HistoryEntry.operation = some o) ∨
      (source.followLog pages query = some (.error .byteLimit) ∧
        TooLarge source query (source.ancestors query.heads) query.limit 0) := by
  refine ⟨(source.ancestors query.heads).ncard + 1, ?_⟩
  rcases followLog_spec hcausal hbounds.1 hbounds.2 hheads hpages (Nat.lt_succ_self _) with
    ⟨operations, hfollow, hcomplete⟩ | hfail
  · refine .inl ⟨operations, hfollow, ?_, fun id => ?_, hcomplete.content⟩
    · have hranks : ∀ o ∈ operations, source.rank o.id = opRank (o.generation, o.id) :=
        fun o ho => rank_of_content (hcomplete.content o ho)
      have hsorted := pairwise_map.mp hcomplete.leading.sorted
      refine hsorted.imp_of_mem fun {a b} ha hb hlt => ?_
      rw [← hranks a ha, ← hranks b hb]
      exact OrderDual.toDual_lt_toDual.mp hlt
    · exact ⟨hcomplete.leading.mem id, hcomplete.all id⟩
  · exact .inr hfail

/-- A control operation of ten bytes. -/
def sampleOp (generation : Nat) (parents : List OpId) : TopicOp :=
  ⟨parents, 1, ⟨1, generation + 1, VectorClock.new⟩, generation, .control, 10⟩

/-- Two operations on one, and a fourth one that joins them. -/
def diamond : HistorySource where
  op id :=
    if id = 4 then some (sampleOp 2 [2, 3])
    else if id = 3 then some (sampleOp 1 [1])
    else if id = 2 then some (sampleOp 1 [1])
    else if id = 1 then some (sampleOp 0 [])
    else none
  checkCommit _ := true
  rejected _ := false

theorem diamond_causal : diamond.Causal where
  parents := by
    intro id op hop p hp
    simp only [diamond] at hop
    split_ifs at hop
    all_goals cases hop
    · rcases mem_cons.mp hp with rfl | hp
      · exact ⟨sampleOp 1 [1], by decide, by decide⟩
      · rw [mem_singleton.mp hp]
        exact ⟨sampleOp 1 [1], by decide, by decide⟩
    · rw [mem_singleton.mp hp]
      exact ⟨sampleOp 0 [], by decide, by decide⟩
    · rw [mem_singleton.mp hp]
      exact ⟨sampleOp 0 [], by decide, by decide⟩
    · cases hp

def diamondQuery (maxBytes : Nat) : TopicHistory := ⟨sampleGraph, [4], 2, maxBytes⟩

theorem diamond_requests {heads : List OpId} (h : diamond.Requests (diamondQuery 20) heads) :
    heads ∈ [[(4 : OpId)], [1, 2]] := by
  induction h with
  | first => decide
  | @next heads page _ hlog hmore ih =>
    have hnext : (diamond.historyLog { diamondQuery 20 with heads := heads }).toOption.map
        HistoryPage.next = some page.next := by
      rw [hlog]
      rfl
    rcases mem_cons.mp ih with rfl | ih
    · have hfirst : (diamond.historyLog { diamondQuery 20 with heads := [4] }).toOption.map
          HistoryPage.next = some [1, 2] := by decide +kernel
      rw [← Option.some.inj (hfirst.symm.trans hnext)]
      decide
    · rw [mem_singleton.mp ih] at hnext
      have hlast : (diamond.historyLog { diamondQuery 20 with heads := [1, 2] }).toOption.map
          HistoryPage.next = some [] := by decide +kernel
      exact absurd (Option.some.inj (hlast.symm.trans hnext)).symm hmore

theorem diamond_bytes (ids : List OpId) : diamond.totalBytes ids ≤ 10 * ids.length := by
  induction ids with
  | nil => simp [totalBytes]
  | cons id ids ih =>
    have hop : ((diamond.op id).map TopicOp.bytes).getD 0 ≤ 10 := by
      simp only [diamond]
      split_ifs <;> decide
    simp only [totalBytes, map_cons, sum_cons, length_cons] at ih ⊢
    omega

theorem history_log_complete_diamond :
    ∃ pages operations, diamond.followLog pages (diamondQuery 20) = some (.ok operations) ∧
      ∀ id, id ∈ operations.map HistoryOperation.id ↔ id ∈ diamond.ancestors [4] := by
  have hheads : ∀ id ∈ (diamondQuery 20).heads, (diamond.op id).isSome := by
    intro id hid
    rw [mem_singleton.mp hid]
    rfl
  have hrequests : ∀ heads, diamond.Requests (diamondQuery 20) heads →
      heads.dedup.length ≤ (diamondQuery 20).limit := by
    intro heads hrequest
    have hlength : ∀ heads ∈ [[(4 : OpId)], [1, 2]], heads.dedup.length ≤ 2 := by decide +kernel
    exact hlength heads (diamond_requests hrequest)
  obtain ⟨pages, hpages⟩ := history_log_complete diamond_causal hheads (by decide) hrequests
  rcases hpages with ⟨operations, hfollow, _, hmem, _⟩ | ⟨_, ids, _, _, hlength, hlarge⟩
  · exact ⟨pages, operations, hfollow, hmem⟩
  · have hbytes := diamond_bytes ids
    have hlimit : ids.length ≤ 2 := hlength
    have hmax : 20 < 0 + diamond.totalBytes ids := hlarge
    omega

/-- With fewer bytes than the first page needs, the log of the diamond cannot be read at all. -/
theorem history_log_byte_limit :
    diamond.Causal ∧ (∀ heads, diamond.Requests (diamondQuery 15) heads → heads.dedup.length ≤ 2) ∧
      ∀ pages operations, diamond.followLog pages (diamondQuery 15) ≠ some (.ok operations) := by
  have hfail : diamond.historyLog (diamondQuery 15) = .error .byteLimit := by decide +kernel
  have honly : ∀ heads, diamond.Requests (diamondQuery 15) heads → heads = [4] := by
    intro heads hrequest
    induction hrequest with
    | first => rfl
    | next _ hlog _ ih =>
      -- the first page fails, so no other one is requested
      rw [ih] at hlog
      exact absurd (hfail.symm.trans hlog) nofun
  refine ⟨diamond_causal, fun heads hrequest => ?_, fun pages operations => ?_⟩
  · rw [honly heads hrequest]
    decide
  · cases pages with
    | zero => exact nofun
    | succ pages =>
      rw [HistorySource.followLog, hfail]
      exact nofun

end Craqle
