import Craqle.Lib.Ordered
import Craqle.Lib.Updates
import Mathlib.Data.Set.Basic

/-! # Dots and vector clocks

The event identities of the replication layer and the clocks that summarise them. A clock
keeps the highest counter seen from each actor. What it has *seen* is a set of dots
(`VectorClock.seen`), and every fact about clocks used later is about that set: advancing
and merging enlarge it (`contains_advance`, `contains_merge`), and it determines the clock
(`VectorClock.ext_contains`).
-/

namespace Craqle

open Std (ExtTreeMap ExtTreeSet TransCmp TransOrd LawfulEqOrd)

/-- `[u8; 32]`, ordered as its bytes. -/
abbrev ActorId := BitVec 256

-- named, so that all maps keyed by actors carry the same proofs
instance instTransCmpActorId : TransCmp (compare : ActorId → ActorId → Ordering) :=
  inferInstanceAs (TransOrd (BitVec 256))

instance instLawfulEqOrdActorId : LawfulEqOrd ActorId :=
  inferInstanceAs (LawfulEqOrd (BitVec 256))

/-- A single event identifier: an actor and its monotonic counter. -/
structure Dot where
  actor : ActorId
  counter : Nat
  deriving DecidableEq

instance : Ord Dot where
  compare := compareLex (compareOn Dot.actor) (compareOn Dot.counter)

instance : TransOrd Dot :=
  inferInstanceAs (TransCmp (compareLex (compareOn Dot.actor) (compareOn Dot.counter)))

instance : LawfulEqOrd Dot where
  eq_of_compare {a b} h := by
    change (compare a.actor b.actor).then (compare a.counter b.counter) = .eq at h
    rw [Ordering.then_eq_eq, Std.compare_eq_iff_eq, Std.compare_eq_iff_eq] at h
    cases a
    cases b
    simp_all

/-- A sorted vector of dots without repeats, as `normalize_dots` leaves it. -/
abbrev DotSet := ExtTreeSet Dot compare

/-! ## Vector clocks -/

/-- The highest counter seen from each actor for a given graph. -/
structure VectorClock where
  entries : ExtTreeMap ActorId Nat compare
  deriving DecidableEq

namespace VectorClock

def new : VectorClock := ⟨∅⟩

/-- Record that everything up to `counter` has been seen from `actor`. -/
def advance (c : VectorClock) (actor : ActorId) (counter : Nat) : VectorClock :=
  ⟨c.entries.insert actor (max (c.entries[actor]?.getD 0) counter)⟩

def contains (c : VectorClock) (dot : Dot) : Bool :=
  match c.entries[dot.actor]? with
  | some seen => decide (dot.counter ≤ seen)
  | none => false

/-- Element-wise maximum: every entry of `other` is advanced to. -/
def merge (c other : VectorClock) : VectorClock :=
  other.entries.toList.foldl (fun c entry => c.advance entry.1 entry.2) c

def seen (c : VectorClock) : Set Dot := {d | c.contains d = true}

variable {c : VectorClock}

@[simp] theorem mem_seen {d : Dot} : d ∈ c.seen ↔ c.contains d = true := Iff.rfl

theorem contains_iff {d : Dot} :
    c.contains d = true ↔ ∃ n, c.entries[d.actor]? = some n ∧ d.counter ≤ n := by
  unfold contains
  cases h : c.entries[d.actor]? with
  | none => simp
  | some n => simp

@[simp] theorem contains_new (d : Dot) : new.contains d = false := by
  simp [new, contains]

theorem entries_advance (c : VectorClock) (a b : ActorId) (n : Nat) :
    (c.advance a n).entries[b]? =
      if a = b then some (max (c.entries[a]?.getD 0) n) else c.entries[b]? :=
  Ordered.getElem?_insert _ _ _ _

theorem contains_advance (c : VectorClock) (a : ActorId) (n : Nat) (d : Dot) :
    (c.advance a n).contains d = true ↔
      c.contains d = true ∨ (d.actor = a ∧ d.counter ≤ n) := by
  rw [contains_iff, contains_iff, entries_advance]
  by_cases ha : a = d.actor
  · subst ha
    cases h : c.entries[d.actor]? with
    | none => simp
    | some m => simp
  · have hne : d.actor ≠ a := fun h => ha h.symm
    simp [ha, hne]

theorem contains_foldl_advance (l : List (ActorId × Nat)) (c : VectorClock) (d : Dot) :
    (l.foldl (fun c entry => c.advance entry.1 entry.2) c).contains d = true ↔
      c.contains d = true ∨ ∃ n, (d.actor, n) ∈ l ∧ d.counter ≤ n := by
  rw [Updates.foldl_iff_exists (P := fun c : VectorClock => c.contains d = true)
    fun c entry => contains_advance c entry.1 entry.2 d]
  refine or_congr_right ⟨?_, ?_⟩
  · rintro ⟨⟨_, n⟩, hentry, rfl, hle⟩
    exact ⟨n, hentry, hle⟩
  · rintro ⟨n, hentry, hle⟩
    exact ⟨_, hentry, rfl, hle⟩

/-- **A merged clock has seen exactly what either side has.** -/
theorem contains_merge (c other : VectorClock) (d : Dot) :
    (c.merge other).contains d = true ↔ c.contains d = true ∨ other.contains d = true := by
  unfold merge
  rw [contains_foldl_advance, contains_iff (c := other)]
  simp

/-- Dots of one actor are seen downwards. -/
theorem contains_of_le {a : ActorId} {m n : Nat}
    (h : c.contains ⟨a, n⟩ = true) (hmn : m ≤ n) : c.contains ⟨a, m⟩ = true := by
  obtain ⟨k, hk, hle⟩ := contains_iff.mp h
  exact contains_iff.mpr ⟨k, hk, le_trans hmn hle⟩

/-- A clock's entry is the highest counter it has seen from the actor. -/
theorem entries_eq_some_iff {a : ActorId} {n : Nat} :
    c.entries[a]? = some n ↔ ∀ m, c.contains ⟨a, m⟩ = true ↔ m ≤ n := by
  constructor
  · intro h m
    rw [contains_iff]
    simp [h]
  · intro h
    obtain ⟨k, hk, hnk⟩ := contains_iff.mp ((h n).mpr le_rfl)
    have hkn : k ≤ n := (h k).mp (contains_iff.mpr ⟨k, hk, le_rfl⟩)
    rw [hk, le_antisymm hkn hnk]

/-- **A clock is determined by what it has seen.** -/
theorem ext_contains {c' : VectorClock}
    (h : ∀ d, c.contains d = true ↔ c'.contains d = true) : c = c' := by
  obtain ⟨e⟩ := c
  obtain ⟨e'⟩ := c'
  congr 1
  apply ExtTreeMap.ext_getElem?
  intro a
  apply Option.ext
  intro n
  constructor
  · intro hn
    refine entries_eq_some_iff (c := ⟨e'⟩) |>.mpr fun m => ?_
    rw [← h]
    exact entries_eq_some_iff (c := ⟨e⟩) |>.mp hn m
  · intro hn
    refine entries_eq_some_iff (c := ⟨e⟩) |>.mpr fun m => ?_
    rw [h]
    exact entries_eq_some_iff (c := ⟨e'⟩) |>.mp hn m

theorem seen_injective : Function.Injective seen := by
  intro c c' h
  exact ext_contains fun d => Set.ext_iff.mp h d

end VectorClock

/-- Every dot a claimed context holds that `known` does not cover. -/
def missingDots (claim known : VectorClock) : List Dot :=
  (claim.entries.toList.map fun entry => (⟨entry.1, entry.2⟩ : Dot)).filter
    fun dot => !known.contains dot

theorem missingDots_eq_nil_iff {claim known : VectorClock} :
    missingDots claim known = [] ↔ ∀ d, claim.contains d = true → known.contains d = true := by
  unfold missingDots
  rw [List.filter_eq_nil_iff]
  constructor
  · intro h d hd
    obtain ⟨n, hn, hle⟩ := VectorClock.contains_iff.mp hd
    have hmem : (⟨d.actor, n⟩ : Dot) ∈
        claim.entries.toList.map fun entry => (⟨entry.1, entry.2⟩ : Dot) :=
      List.mem_map.mpr ⟨(d.actor, n), ExtTreeMap.mem_toList_iff_getElem?_eq_some.mpr hn, rfl⟩
    have hknown : known.contains ⟨d.actor, n⟩ = true := by simpa using h _ hmem
    exact VectorClock.contains_of_le hknown hle
  · intro h d hd
    obtain ⟨entry, hentry, rfl⟩ := List.mem_map.mp hd
    have hget := ExtTreeMap.mem_toList_iff_getElem?_eq_some.mp hentry
    have hclaim : claim.contains ⟨entry.1, entry.2⟩ = true :=
      VectorClock.contains_iff.mpr ⟨entry.2, hget, le_rfl⟩
    simpa using h _ hclaim

end Craqle
