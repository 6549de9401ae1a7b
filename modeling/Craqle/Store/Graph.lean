import Craqle.Core.Batch

/-! # The stored state of one graph

A graph's quads are keyed by their canonical terms, and each stored row is a non-empty set of
dots: `write_quad_state` removes a row that lost its last dot. `QuadTable` carries that as an
invariant, so that a table is determined by the dots of every quad (`QuadTable.ext_dots`).
Term identifiers are content-addressed and a key is modelled by the texts it stands for.

`applyOps` is the loop of `apply_single_batch` over a batch's operations. What it leaves is
given per quad and dot: a dot that no operation removes is left if it was there or is added
(`mem_applyOps_of_not_removes`), and a dot that no operation adds is left if it was there and
is not removed (`mem_applyOps_of_not_adds`).
-/

namespace Craqle

open Ordered

open Std (ExtTreeMap)

/-! ## Quad rows -/

structure QuadTable where
  rows : ExtTreeMap Triple DotSet compare
  live : ∀ (q : Triple) (dots : DotSet), rows[q]? = some dots → dots ≠ ∅

namespace QuadTable

def empty : QuadTable where
  rows := ∅
  live q dots h := by simp at h

/-- The dots of a quad; none when no row is stored. -/
def dots (t : QuadTable) (q : Triple) : DotSet := t.rows[q]?.getD ∅

def Live (t : QuadTable) (q : Triple) : Prop := t.dots q ≠ ∅

instance (t : QuadTable) (q : Triple) : Decidable (t.Live q) :=
  inferInstanceAs (Decidable (t.dots q ≠ ∅))

/-- Store a quad's dots, or remove its row when none is left. -/
def writeQuadState (t : QuadTable) (q : Triple) (dots : DotSet) : QuadTable :=
  if h : dots = ∅ then
    { rows := t.rows.erase q
      live := by
        intro q' dots' hrow
        rw [Ordered.getElem?_erase] at hrow
        split at hrow
        · simp at hrow
        · exact t.live q' dots' hrow }
  else
    { rows := t.rows.insert q dots
      live := by
        intro q' dots' hrow
        rw [Ordered.getElem?_insert] at hrow
        split at hrow
        · exact Option.some.inj hrow ▸ h
        · exact t.live q' dots' hrow }

/-- Stages one OR-Set add. -/
def insertQuad (t : QuadTable) (q : Triple) (dot : Dot) : QuadTable :=
  if dot ∈ t.dots q then t else t.writeQuadState q ((t.dots q).insert dot)

def removeQuad (t : QuadTable) (q : Triple) (witnessed : VectorClock) : QuadTable :=
  let kept := (t.dots q).filter fun dot => !witnessed.contains dot
  if kept = t.dots q then t else t.writeQuadState q kept

@[simp] theorem dots_empty (q : Triple) : empty.dots q = ∅ := by
  simp [empty, dots]

theorem dots_writeQuadState (t : QuadTable) (q q' : Triple) (ds : DotSet) :
    (t.writeQuadState q ds).dots q' = if q = q' then ds else t.dots q' := by
  unfold writeQuadState
  split
  · next h =>
    unfold dots
    rw [getElem?_erase]
    by_cases hq : q = q'
    · simp [hq, h]
    · simp [hq]
  · unfold dots
    rw [getElem?_insert]
    by_cases hq : q = q'
    · simp [hq]
    · simp [hq]

theorem mem_dots_insertQuad (t : QuadTable) (q q' : Triple) (dot d : Dot) :
    d ∈ (t.insertQuad q dot).dots q' ↔ d ∈ t.dots q' ∨ (q = q' ∧ d = dot) := by
  unfold insertQuad
  split
  · next hmem =>
    constructor
    · exact Or.inl
    · rintro (h | ⟨rfl, rfl⟩)
      · exact h
      · exact hmem
  · rw [dots_writeQuadState]
    by_cases hq : q = q'
    · subst hq
      simp only [if_true, mem_insert, true_and]
      exact or_comm
    · simp [hq]

theorem mem_dots_removeQuad (t : QuadTable) (q q' : Triple) (w : VectorClock) (d : Dot) :
    d ∈ (t.removeQuad q w).dots q' ↔ d ∈ t.dots q' ∧ ¬ (q = q' ∧ w.contains d = true) := by
  have hkept : d ∈ (t.dots q).filter (fun dot => !w.contains dot) ↔
      d ∈ t.dots q ∧ ¬ w.contains d = true := by
    rw [mem_filter]
    simp
  unfold removeQuad
  by_cases hq : q = q'
  · subst hq
    simp only [true_and]
    split
    · next hsame =>
      -- nothing was dropped, so no dot of the quad is witnessed
      rw [hsame] at hkept
      exact hkept
    · rw [dots_writeQuadState, if_pos rfl]
      exact hkept
  · simp only [hq, false_and, not_false_eq_true, and_true]
    split
    · rfl
    · rw [dots_writeQuadState, if_neg hq]

theorem rows_eq (t : QuadTable) (q : Triple) :
    t.rows[q]? = if t.dots q = ∅ then none else some (t.dots q) := by
  unfold dots
  cases h : t.rows[q]? with
  | none => simp
  | some ds => simp [t.live q ds h]

/-- **A table is determined by the dots of every quad.** -/
theorem ext_dots {t t' : QuadTable} (h : ∀ q d, d ∈ t.dots q ↔ d ∈ t'.dots q) : t = t' := by
  have hdots : ∀ q, t.dots q = t'.dots q := fun q => Std.ExtTreeSet.ext_mem (h q)
  have hrows : t.rows = t'.rows := by
    apply ExtTreeMap.ext_getElem?
    intro q
    rw [rows_eq, rows_eq, hdots]
  cases t
  cases t'
  congr

theorem live_iff (t : QuadTable) (q : Triple) : t.Live q ↔ ∃ d, d ∈ t.dots q :=
  ne_empty_iff _

instance : DecidableEq QuadTable := fun t t' =>
  if h : t.rows = t'.rows then
    isTrue (by cases t; cases t'; congr)
  else isFalse fun h' => h (h' ▸ rfl)

end QuadTable

/-! ## The graph record -/

/-- What the store keeps for one graph: whether its meta record exists, its tombstone, its
quads, its vector clock, and the last counter each local actor used in its log. -/
structure GraphState where
  present : Bool
  tombstone : Option GraphTombstone
  quads : QuadTable
  clock : VectorClock
  logHeads : ExtTreeMap ActorId Nat compare
  deriving DecidableEq

namespace GraphState

/-- A graph the store has never heard of. -/
def unknown : GraphState := ⟨false, none, QuadTable.empty, VectorClock.new, ∅⟩

def createGraph (s : GraphState) : GraphState := { s with present := true }

def nextCounter (s : GraphState) (actor : ActorId) : Except Panic Nat :=
  match s.logHeads[actor]? with
  | some head => if head + 1 < 2 ^ 64 then .ok (head + 1) else .error .overflow
  | none => .ok 1

/-- The rows of a graph, sorted by quad, each with its sorted dots. -/
def snapshot (graph : GraphId) (s : GraphState) : GraphReplicaSnapshot where
  graph := graph
  clock := s.clock
  quads := s.quads.rows.toList.map fun row => ⟨row.1, row.2.toList⟩

/-- Permanently delete the graph: the later delete event's tombstone is retained, and rows,
meta record, clock and log heads are removed. The policy of the record, which the store keeps under
a key of its own, is not part of this state (see `TopicNode.deleteGraph`). -/
def deleteGraphInner (s : GraphState) (tombstone : GraphTombstone) : GraphState where
  present := false
  tombstone :=
    match s.tombstone with
    | some existing =>
      if tombstone.deleteEvent ≤ existing.deleteEvent then some existing else some tombstone
    | none => some tombstone
  quads := QuadTable.empty
  clock := VectorClock.new
  logHeads := ∅

end GraphState

/-! ## Applying operations -/

/-- Replicated literal aliases share the canonical quad. -/
def resolveQuad (ox : Oxrdf) (q : Triple) : Except Panic Triple := do
  let subject ← q.subject.canonicalize ox
  let predicate ← q.predicate.canonicalize ox
  let object ← q.object.canonicalize ox
  .ok ⟨subject, predicate, object⟩

/-- One operation of a batch, on the canonical quad. -/
def applyOp (ox : Oxrdf) (t : QuadTable) (op : QuadOp) : Except Panic QuadTable :=
  (resolveQuad ox op.quad).map fun quad =>
    match op with
    | .add _ dot => t.insertQuad quad dot
    | .remove _ witnessed => t.removeQuad quad witnessed

def applyOps (ox : Oxrdf) (t : QuadTable) (ops : List QuadOp) : Except Panic QuadTable :=
  ops.foldlM (applyOp ox) t

namespace QuadOp

variable (ox : Oxrdf)

def Adds (op : QuadOp) (q : Triple) (d : Dot) : Prop :=
  ∃ quad, op = .add quad d ∧ resolveQuad ox quad = .ok q

def Removes (op : QuadOp) (q : Triple) (d : Dot) : Prop :=
  ∃ quad witnessed, op = .remove quad witnessed ∧ resolveQuad ox quad = .ok q ∧
    witnessed.contains d = true

variable {ox} {terms q : Triple} {dot d : Dot} {witnessed : VectorClock}

@[simp] theorem adds_add : (add terms dot).Adds ox q d ↔ resolveQuad ox terms = .ok q ∧ d = dot := by
  constructor
  · rintro ⟨_, heq, hres⟩
    cases heq
    exact ⟨hres, rfl⟩
  · rintro ⟨hres, rfl⟩
    exact ⟨terms, rfl, hres⟩

@[simp] theorem not_adds_remove : ¬ (remove terms witnessed).Adds ox q d := by
  simp [Adds]

@[simp] theorem removes_remove : (remove terms witnessed).Removes ox q d ↔
    resolveQuad ox terms = .ok q ∧ witnessed.contains d = true := by
  simp [Removes]

@[simp] theorem not_removes_add : ¬ (add terms dot).Removes ox q d := by
  simp [Removes]

end QuadOp

variable {ox : Oxrdf} {t t' : QuadTable}

theorem mem_applyOp {op : QuadOp} (h : applyOp ox t op = .ok t') (q : Triple) (d : Dot) :
    d ∈ t'.dots q ↔ (d ∈ t.dots q ∧ ¬ op.Removes ox q d) ∨ op.Adds ox q d := by
  obtain ⟨quad, hquad, rfl⟩ := Fallible.map_eq_ok.mp h
  cases op with
  | add terms dot =>
    have hterms : resolveQuad ox terms = .ok quad := hquad
    simp [QuadTable.mem_dots_insertQuad, hterms]
  | remove terms witnessed =>
    have hterms : resolveQuad ox terms = .ok quad := hquad
    simp [QuadTable.mem_dots_removeQuad, hterms]

theorem mem_applyOps_of_not_removes {ops : List QuadOp} (h : applyOps ox t ops = .ok t')
    {q : Triple} {d : Dot} (hrem : ∀ op ∈ ops, ¬ op.Removes ox q d) :
    d ∈ t'.dots q ↔ d ∈ t.dots q ∨ ∃ op ∈ ops, op.Adds ox q d := by
  induction ops generalizing t with
  | nil =>
    cases h
    simp
  | cons op ops ih =>
    obtain ⟨next, hstep, hrest⟩ := Fallible.foldlM_cons_eq_ok.mp h
    rw [ih hrest fun op' hop' => hrem op' (List.mem_cons_of_mem _ hop'), mem_applyOp hstep]
    have hhead : ¬ op.Removes ox q d := hrem op List.mem_cons_self
    simp [hhead, or_assoc]

theorem mem_applyOps_of_not_adds {ops : List QuadOp} (h : applyOps ox t ops = .ok t') {q : Triple}
    {d : Dot} (hadd : ∀ op ∈ ops, ¬ op.Adds ox q d) :
    d ∈ t'.dots q ↔ d ∈ t.dots q ∧ ∀ op ∈ ops, ¬ op.Removes ox q d := by
  induction ops generalizing t with
  | nil =>
    cases h
    simp
  | cons op ops ih =>
    obtain ⟨next, hstep, hrest⟩ := Fallible.foldlM_cons_eq_ok.mp h
    rw [ih hrest fun op' hop' => hadd op' (List.mem_cons_of_mem _ hop'), mem_applyOp hstep]
    have hhead : ¬ op.Adds ox q d := hadd op List.mem_cons_self
    simp [hhead, and_assoc]

end Craqle
