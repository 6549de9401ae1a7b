import Craqle.Lib.Ordered
import Craqle.Lib.Toggle

/-! # The keyspaces of the query index

The index keeps every live quad of every graph under small dense term identifiers, in six key
orders, with counters for the planner. One slot is active; the other one is built in the
background.

Keys decode to quads and counter keys, and are modelled by what they decode to. A stored value
can be missing, malformed or a value (`Stored`). The rows of an order have empty values; keys
with any other value are kept apart as `spoiled`.

`Exact` is what the index is for: six orders with the same rows, counters that count them,
and term mappings that are inverse to each other below the next identifier.
-/

namespace Craqle

open Std (TransCmp TransOrd LawfulEqOrd)

/-- The content-addressed identifier of a term. -/
abbrev TermId := BitVec 128

-- named, so that all maps and sets of terms carry the same proofs
instance instTransCmpTermId : TransCmp (compare : TermId → TermId → Ordering) :=
  inferInstanceAs (TransOrd (BitVec 128))

instance instLawfulEqOrdTermId : LawfulEqOrd TermId :=
  inferInstanceAs (LawfulEqOrd (BitVec 128))

/-- The dense identifier of a term in one slot. -/
abbrev QueryTermId := Nat

/-- Addition of 64-bit numbers that stops at the largest one. -/
def saturatingAdd (a b : Nat) : Nat := min (a + b) (2 ^ 64 - 1)

def u64Max : Nat := 2 ^ 64 - 1

def saturatingMul (a b : Nat) : Nat := min (a * b) u64Max

@[ext]
structure Quad (α : Type) where
  graph : α
  subject : α
  predicate : α
  object : α
  deriving DecidableEq

abbrev EncodedQuad := Quad TermId

abbrev QueryQuad := Quad QueryTermId

namespace Quad

variable {α : Type}

def terms (q : Quad α) : List α := [q.graph, q.subject, q.predicate, q.object]

/-- The triple of a quad, in any graph. -/
def spo (q : Quad α) : α × α × α := (q.subject, q.predicate, q.object)

end Quad

/-- A stored value as a read finds it. -/
inductive Stored (α : Type) where
  | missing
  | malformed
  | value (a : α)
  deriving DecidableEq

/-! ## Counters -/

inductive IndexCounterKey where
  | total
  | graph (g : QueryTermId)
  | predicate (p : QueryTermId)
  | graphPredicate (g p : QueryTermId)
  | predicateObject (p o : QueryTermId)
  | graphPredicateObject (g p o : QueryTermId)
  | unionDuplicateFree
  deriving DecidableEq

namespace IndexCounterKey

def matchesQuad : IndexCounterKey → QueryQuad → Bool
  | .total, _ => true
  | .graph g, q => g = q.graph
  | .predicate p, q => p = q.predicate
  | .graphPredicate g p, q => g = q.graph && p = q.predicate
  | .predicateObject p o, q => p = q.predicate && o = q.object
  | .graphPredicateObject g p o, q => g = q.graph && p = q.predicate && o = q.object
  | .unionDuplicateFree, _ => false

end IndexCounterKey

def liveCounterKeys (q : QueryQuad) : List IndexCounterKey :=
  [.total, .graph q.graph, .predicate q.predicate, .graphPredicate q.graph q.predicate,
    .predicateObject q.predicate q.object, .graphPredicateObject q.graph q.predicate q.object]

/-- A quad updates exactly the counters that count it. -/
theorem mem_liveCounterKeys {q : QueryQuad} {k : IndexCounterKey} :
    k ∈ liveCounterKeys q ↔ k.matchesQuad q = true := by
  cases k with
  | total | graph g | predicate p | graphPredicate g p | predicateObject p o
  | unionDuplicateFree => simp [liveCounterKeys, IndexCounterKey.matchesQuad]
  | graphPredicateObject g p o =>
    simp [liveCounterKeys, IndexCounterKey.matchesQuad, and_assoc]

/-! ## Slots -/

inductive IndexSlot where
  | primary
  | secondary
  deriving DecidableEq

namespace IndexSlot

def decode : Nat → Option IndexSlot
  | 0 => some .primary
  | 1 => some .secondary
  | _ => none

def encode : IndexSlot → Nat
  | .primary => 0
  | .secondary => 1

def other : IndexSlot → IndexSlot
  | .primary => .secondary
  | .secondary => .primary

@[simp] theorem decode_encode (slot : IndexSlot) : decode slot.encode = some slot := by
  cases slot with
  | primary => rfl
  | secondary => rfl

theorem other_ne (slot : IndexSlot) : slot.other ≠ slot := by
  cases slot with
  | primary => decide
  | secondary => decide

@[simp] theorem other_other (slot : IndexSlot) : slot.other.other = slot := by
  cases slot with
  | primary => rfl
  | secondary => rfl

end IndexSlot

/-- The six key orders, named by the order of their components. -/
inductive IndexKeyOrder where
  | gspo
  | gpos
  | spog
  | posg
  | ospg
  | gosp
  deriving DecidableEq

def IndexKeyOrder.all : List IndexKeyOrder := [.gspo, .gpos, .spog, .posg, .ospg, .gosp]

theorem IndexKeyOrder.mem_all (o : IndexKeyOrder) : o ∈ all := by
  cases o with
  | gspo | gpos | spog | posg | ospg | gosp => decide

/-- One order: its rows, and the keys whose value is not empty. -/
@[ext]
structure OrderSpace where
  rows : Finset QueryQuad
  spoiled : Finset QueryQuad
  deriving DecidableEq

namespace OrderSpace

def get (s : OrderSpace) (q : QueryQuad) : Stored Unit :=
  if q ∈ s.spoiled then .malformed else if q ∈ s.rows then .value () else .missing

def insert (s : OrderSpace) (q : QueryQuad) : OrderSpace :=
  ⟨Insert.insert q s.rows, s.spoiled.erase q⟩

def remove (s : OrderSpace) (q : QueryQuad) : OrderSpace := ⟨s.rows.erase q, s.spoiled.erase q⟩

/-- All keys, whatever their value. -/
def keys (s : OrderSpace) : Finset QueryQuad := s.rows ∪ s.spoiled

end OrderSpace

/-- The keyspaces of one slot. -/
structure IndexSpaces where
  orders : IndexKeyOrder → OrderSpace
  termToQuery : TermId → Stored QueryTermId
  queryToTerm : QueryTermId → Stored TermId
  counters : IndexCounterKey → Stored Nat
  revisions : QueryTermId → Stored Nat

/-! ## Exactness -/

/-- What a counter holds for a set of rows: nothing when it counts none, the total excepted. -/
def expectedCounter (rows : Finset QueryQuad) (k : IndexCounterKey) : Stored Nat :=
  let n := (rows.filter fun q => k.matchesQuad q).card
  if k = .total ∨ n ≠ 0 then .value n else .missing

/-- No triple lies in two graphs. -/
def UnionFree (rows : Finset QueryQuad) : Prop :=
  ∀ q ∈ rows, ∀ q' ∈ rows, q.spo = q'.spo → q = q'

instance (rows : Finset QueryQuad) : Decidable (UnionFree rows) :=
  inferInstanceAs (Decidable (∀ q ∈ rows, ∀ q' ∈ rows, q.spo = q'.spo → q = q'))

structure Numbered (sp : IndexSpaces) (next : QueryTermId) (rows : Finset QueryQuad) : Prop where
  inverse : ∀ t i, sp.termToQuery t = .value i ↔ sp.queryToTerm i = .value t
  below : ∀ t i, sp.termToQuery t = .value i → i < next
  rows_below : ∀ q ∈ rows, ∀ i ∈ q.terms, i < next

/-- **The index facts**: the six orders hold the same rows, the counters count them, the term
mappings are numbered, and the duplicate-free flag is set only when no triple lies in two
graphs. -/
structure Exact (sp : IndexSpaces) (next : QueryTermId) (rows : Finset QueryQuad) : Prop
    extends Numbered sp next rows where
  orders : ∀ o, sp.orders o = ⟨rows, ∅⟩
  counters : ∀ k, k ≠ .unionDuplicateFree → sp.counters k = expectedCounter rows k
  union : sp.counters .unionDuplicateFree = .value 1 → UnionFree rows

/-- A source quad is stored as `q`: every term is mapped to the identifier in its place. -/
structure Denotes (sp : IndexSpaces) (e : EncodedQuad) (q : QueryQuad) : Prop where
  graph : sp.termToQuery e.graph = .value q.graph
  subject : sp.termToQuery e.subject = .value q.subject
  predicate : sp.termToQuery e.predicate = .value q.predicate
  object : sp.termToQuery e.object = .value q.object

end Craqle
