import Craqle.Crate.Rules

/-! # Pending changes over a graph

Rules are checked before a change set is written, over a view that lays the changes over the
stored rows. The changes are kept in two maps under the last change of each quad: by subject, and
by predicate and object for walks against the direction of the triples. A scan reads the stored
rows of its range first, without those that are deleted, and then the changes of its range that
insert a row it has not given yet.

A view has exactly the triples that the changes leave (`holds_iff`), every read tells the truth
about them, and a scan gives each row once.
-/

namespace Craqle

open List
open Std (ExtTreeMap ExtTreeSet TransOrd TransCmp LawfulEqOrd)

/-! ## The change index -/

/-- A triple in the order of inverse walks. -/
structure PredicateObjectKey where
  predicate : EncodedTerm
  object : EncodedTerm
  subject : EncodedTerm
  deriving DecidableEq

instance : Ord PredicateObjectKey where
  compare := compareLex (compareOn PredicateObjectKey.predicate)
    (compareLex (compareOn PredicateObjectKey.object) (compareOn PredicateObjectKey.subject))

instance : TransOrd PredicateObjectKey :=
  inferInstanceAs (TransCmp (compareLex (compareOn PredicateObjectKey.predicate)
    (compareLex (compareOn PredicateObjectKey.object) (compareOn PredicateObjectKey.subject))))

instance : LawfulEqOrd PredicateObjectKey where
  eq_of_compare {a b} h := by
    change (compare a.predicate b.predicate).then
      ((compare a.object b.object).then (compare a.subject b.subject)) = .eq at h
    rw [Ordering.then_eq_eq, Ordering.then_eq_eq, Std.compare_eq_iff_eq, Std.compare_eq_iff_eq,
      Std.compare_eq_iff_eq] at h
    cases a
    cases b
    simp_all

def Triple.predicateObjectKey (q : Triple) : PredicateObjectKey :=
  ⟨q.predicate, q.object, q.subject⟩

def PredicateObjectKey.triple (key : PredicateObjectKey) : Triple :=
  ⟨key.subject, key.predicate, key.object⟩

def MaterializedQuadChange.touched (graph : GraphId) :
    MaterializedQuadChange → Option (Bool × Triple)
  | .insert g q => if g = graph then some (true, q) else none
  | .delete g q => if g = graph then some (false, q) else none

/-- Last-change-wins state of one graph's changes. -/
structure DeltaIndex where
  states : ExtTreeMap Triple Bool compare
  byPredicateObject : ExtTreeMap PredicateObjectKey Bool compare
  changedSubjects : ExtTreeSet EncodedTerm compare

namespace DeltaIndex

def empty : DeltaIndex := ⟨∅, ∅, ∅⟩

def record (index : DeltaIndex) (change : Bool × Triple) : DeltaIndex where
  states := index.states.insert change.2 change.1
  byPredicateObject := index.byPredicateObject.insert change.2.predicateObjectKey change.1
  changedSubjects := index.changedSubjects.insert change.2.subject

/-- Changes of other graphs are skipped. -/
def build (graph : GraphId) (delta : List MaterializedQuadChange) : DeltaIndex :=
  (delta.filterMap (·.touched graph)).foldl record empty

end DeltaIndex

/-- Fixed terms of a scan inside the graph. -/
structure QuadPattern where
  subject : Option EncodedTerm
  predicate : Option EncodedTerm
  object : Option EncodedTerm

def QuadPattern.matches (p : QuadPattern) (q : Triple) : Bool :=
  p.subject.all (· = q.subject) && p.predicate.all (· = q.predicate) &&
    p.object.all (· = q.object)

/-- The changes in the range of a scan, in the order of the map that it reads. -/
def DeltaIndex.overlay (index : DeltaIndex) (p : QuadPattern) : List (Triple × Bool) :=
  match p.subject, p.predicate, p.object with
  | some subject, some predicate, some object =>
    index.states.toList.filter fun entry => entry.1 = ⟨subject, predicate, object⟩
  | some subject, some predicate, none =>
    index.states.toList.filter fun entry =>
      entry.1.subject = subject ∧ entry.1.predicate = predicate
  | some subject, none, _ => index.states.toList.filter (·.1.subject = subject)
  | none, some predicate, some object =>
    (index.byPredicateObject.toList.filter fun entry =>
      entry.1.predicate = predicate ∧ entry.1.object = object).map
      fun entry => (entry.1.triple, entry.2)
  | none, some predicate, none =>
    (index.byPredicateObject.toList.filter (·.1.predicate = predicate)).map
      fun entry => (entry.1.triple, entry.2)
  | none, none, _ => index.states.toList

/-! ## The view -/

/-- The stored rows of the graph, in the order in which a cursor gives them, and the changes. -/
structure DeltaReadView where
  base : List Triple
  index : DeltaIndex

namespace DeltaReadView

variable (view : DeltaReadView)

/-- The stored rows under the fixed subject, or under the fixed subject and predicate. -/
def durable (p : QuadPattern) : List Triple :=
  match p.subject, p.predicate with
  | some subject, some predicate =>
    view.base.filter fun q => q.subject = subject ∧ q.predicate = predicate
  | some subject, none => view.base.filter (·.subject = subject)
  | none, _ => view.base

def scan (p : QuadPattern) : List Triple :=
  let stored := view.durable p
  let kept := stored.filter fun q => view.index.states[q]? ≠ some false
  -- inserts of rows that are stored have been given already
  let given := stored.filter fun q => view.index.states[q]? = some true
  let added := (view.index.overlay p).filterMap fun entry =>
    if entry.2 = true ∧ entry.1 ∉ given then some entry.1 else none
  (kept ++ added).filter p.matches

/-- A lookup of one triple asks the changes first; other patterns are scanned. -/
def existsMatch (p : QuadPattern) : Bool :=
  match p.subject, p.predicate, p.object with
  | some subject, some predicate, some object =>
    let q : Triple := ⟨subject, predicate, object⟩
    match view.index.states[q]? with
    | some present => present
    | none => view.base.contains q
  | _, _, _ => !(view.scan p).isEmpty

def countUpTo (p : QuadPattern) (cap : Nat) : Nat := min (view.scan p).length cap

/-- A graph before the changes has a row of the subject. -/
def baseSubjectExists (subject : EncodedTerm) : Bool := view.base.any (·.subject = subject)

end DeltaReadView

/-! ## What the changes leave -/

/-- The triples of a graph after some changes, made one by one. -/
def applyTouched (T : Set Triple) (changes : List (Bool × Triple)) : Set Triple :=
  changes.foldl (fun T change => if change.1 then insert change.2 T else T \ {change.2}) T

def afterChanges (graph : GraphId) (T : Set Triple) (delta : List MaterializedQuadChange) :
    Set Triple :=
  applyTouched T (delta.filterMap (·.touched graph))

theorem applyTouched_concat (T : Set Triple) (changes : List (Bool × Triple))
    (change : Bool × Triple) :
    applyTouched T (changes ++ [change]) =
      if change.1 then insert change.2 (applyTouched T changes)
      else applyTouched T changes \ {change.2} := by
  unfold applyTouched
  rw [foldl_append]
  rfl

theorem mem_applyTouched_of_untouched {T : Set Triple} {changes : List (Bool × Triple)} {q : Triple}
    (h : ∀ change ∈ changes, change.2 ≠ q) : q ∈ applyTouched T changes ↔ q ∈ T := by
  induction changes using reverseRecOn with
  | nil => rfl
  | append_singleton changes change ih =>
    have hne : q ≠ change.2 := fun heq => h change (by simp) heq.symm
    have hrest := ih fun c hc => h c (mem_append_left _ hc)
    rw [applyTouched_concat]
    split
    · rw [Set.mem_insert_iff, hrest]
      exact or_iff_right hne
    · rw [Set.mem_sdiff, Set.mem_singleton_iff, hrest]
      exact and_iff_left hne

theorem exists_insert_of_mem {T : Set Triple} {changes : List (Bool × Triple)} {q : Triple}
    (h : q ∈ applyTouched T changes) (hT : q ∉ T) : (true, q) ∈ changes := by
  induction changes using reverseRecOn with
  | nil => exact absurd h hT
  | append_singleton changes change ih =>
    obtain ⟨inserted, q'⟩ := change
    rw [applyTouched_concat] at h
    rw [List.mem_append, List.mem_singleton]
    cases inserted with
    | true =>
      rcases Set.mem_insert_iff.mp h with rfl | h
      · exact .inr rfl
      · exact .inl (ih h)
    | false => exact .inl (ih h.1)

namespace DeltaIndex

variable {changes : List (Bool × Triple)}

/-- The two maps hold the same changes, and only triples of changed subjects. -/
structure Sound (index : DeltaIndex) : Prop where
  orders : ∀ q : Triple, index.byPredicateObject[q.predicateObjectKey]? = index.states[q]?
  subjects : ∀ q : Triple, q ∈ index.states → q.subject ∈ index.changedSubjects

theorem predicateObjectKey_inj {q q' : Triple} :
    q.predicateObjectKey = q'.predicateObjectKey ↔ q = q' := by
  constructor
  · intro h
    cases q
    cases q'
    simp_all [Triple.predicateObjectKey]
  · rintro rfl
    rfl

theorem Sound.record {index : DeltaIndex} (h : index.Sound) (change : Bool × Triple) :
    (index.record change).Sound where
  orders q := by
    show (index.byPredicateObject.insert change.2.predicateObjectKey change.1)[_]? =
      (index.states.insert change.2 change.1)[q]?
    simp [Ordered.getElem?_insert, predicateObjectKey_inj, h.orders]
  subjects q hq := by
    show q.subject ∈ index.changedSubjects.insert change.2.subject
    have hq : q ∈ index.states.insert change.2 change.1 := hq
    rw [ExtTreeMap.mem_insert, Std.compare_eq_iff_eq] at hq
    rw [Ordered.mem_insert]
    rcases hq with rfl | hq
    · exact .inl rfl
    · exact .inr (h.subjects q hq)

theorem sound_foldl (changes : List (Bool × Triple)) : (changes.foldl record empty).Sound := by
  induction changes using reverseRecOn with
  | nil => exact ⟨fun q => by simp [empty], fun q hq => by simp [empty] at hq⟩
  | append_singleton changes change ih =>
    rw [foldl_append]
    exact ih.record change

/-- **The index keeps the last change of every triple.** -/
theorem mem_applyTouched_iff (T : Set Triple) (changes : List (Bool × Triple)) (q : Triple) :
    q ∈ applyTouched T changes ↔
      (changes.foldl record empty).states[q]? = some true ∨
        ((changes.foldl record empty).states[q]? = none ∧ q ∈ T) := by
  induction changes using reverseRecOn with
  | nil => simp [applyTouched, empty]
  | append_singleton changes change ih =>
    rw [applyTouched_concat, foldl_append]
    show _ ↔ ((changes.foldl record empty).states.insert change.2 change.1)[q]? = some true ∨
      (((changes.foldl record empty).states.insert change.2 change.1)[q]? = none ∧ q ∈ T)
    rw [Ordered.getElem?_insert]
    obtain ⟨inserted, q'⟩ := change
    by_cases hq : q' = q
    · subst hq
      cases inserted <;> simp
    · have hq' : q ≠ q' := fun heq => hq heq.symm
      cases inserted <;> simp [hq, hq', ih]

theorem isEmpty_changedSubjects (changes : List (Bool × Triple)) :
    (changes.foldl record empty).changedSubjects.isEmpty = true ↔ changes = [] := by
  induction changes using reverseRecOn with
  | nil => simp [empty]
  | append_singleton changes change ih =>
    rw [foldl_append]
    show ((changes.foldl record empty).changedSubjects.insert change.2.subject).isEmpty = true ↔ _
    simp

/-! ## Ranges of changes -/

variable {index : DeltaIndex} {p : QuadPattern} {q : Triple} {present : Bool}

theorem mem_states_toList : (q, present) ∈ index.states.toList ↔ index.states[q]? = some present :=
  ExtTreeMap.mem_toList_iff_getElem?_eq_some

theorem mem_byPredicateObject_toList (h : index.Sound) {key : PredicateObjectKey} :
    (key, present) ∈ index.byPredicateObject.toList ↔ index.states[key.triple]? = some present := by
  rw [ExtTreeMap.mem_toList_iff_getElem?_eq_some, ← h.orders key.triple]
  rfl

/-- A range has only changes of the index. -/
theorem states_of_mem_overlay (h : index.Sound) (hq : (q, present) ∈ index.overlay p) :
    index.states[q]? = some present := by
  obtain ⟨subject, predicate, object⟩ := p
  unfold overlay at hq
  rcases subject with _ | subject <;> rcases predicate with _ | predicate <;>
    rcases object with _ | object <;>
    simp only [mem_filter, mem_map] at hq
  case none.some.none | none.some.some =>
    obtain ⟨⟨key, b⟩, ⟨hkey, _⟩, heq⟩ := hq
    cases heq
    exact (mem_byPredicateObject_toList h).mp hkey
  case none.none.none | none.none.some => exact mem_states_toList.mp hq
  all_goals exact mem_states_toList.mp hq.1

/-- A range has every change that matches the pattern. -/
theorem mem_overlay (h : index.Sound) (hstate : index.states[q]? = some present)
    (hmatch : p.matches q = true) : (q, present) ∈ index.overlay p := by
  obtain ⟨subject, predicate, object⟩ := p
  have hkey : (q.predicateObjectKey, present) ∈ index.byPredicateObject.toList :=
    (mem_byPredicateObject_toList h).mpr hstate
  have hstates := mem_states_toList.mpr hstate
  unfold overlay
  unfold QuadPattern.matches at hmatch
  obtain ⟨qs, qp, qo⟩ := q
  rcases subject with _ | subject <;> rcases predicate with _ | predicate <;>
    rcases object with _ | object <;> simp at hmatch
  case none.some.none | none.some.some =>
    refine mem_map.mpr ⟨_, mem_filter.mpr ⟨hkey, ?_⟩, rfl⟩
    simp [Triple.predicateObjectKey, hmatch]
  case none.none.none | none.none.some => exact hstates
  all_goals exact mem_filter.mpr ⟨hstates, by simp [hmatch]⟩

/-- A range has every triple once. -/
theorem nodup_overlay (index : DeltaIndex) (p : QuadPattern) :
    ((index.overlay p).map Prod.fst).Nodup := by
  have hstates : (index.states.toList.map Prod.fst).Nodup := Ordered.nodup_keys_toList _
  have hkeys : (index.byPredicateObject.toList.map fun entry => entry.1.triple).Nodup := by
    have hnodup : (index.byPredicateObject.toList.map Prod.fst).Nodup := Ordered.nodup_keys_toList _
    have hinj : Function.Injective PredicateObjectKey.triple := by
      rintro ⟨⟩ ⟨⟩ heq
      simp_all [PredicateObjectKey.triple]
    have hmap := hnodup.map hinj
    rwa [map_map] at hmap
  have hfilter : ∀ f : Triple × Bool → Bool, ((index.states.toList.filter f).map Prod.fst).Nodup :=
    fun f => hstates.sublist ((filter_sublist).map _)
  have hfilterKeys : ∀ f : PredicateObjectKey × Bool → Bool,
      (((index.byPredicateObject.toList.filter f).map
        fun entry => (entry.1.triple, entry.2)).map Prod.fst).Nodup := by
    intro f
    rw [map_map]
    exact hkeys.sublist ((filter_sublist).map _)
  unfold overlay
  split
  · exact hfilter _
  · exact hfilter _
  · exact hfilter _
  · exact hfilterKeys _
  · exact hfilterKeys _
  · exact hstates

end DeltaIndex

/-! ## Reads of the view -/

namespace DeltaReadView

variable (view : DeltaReadView)

def after : Set Triple :=
  {q | view.index.states[q]? = some true ∨ (view.index.states[q]? = none ∧ q ∈ view.base)}

variable {view} {p : QuadPattern} {q : Triple}

/-- The stored range has every stored row that matches. -/
theorem mem_durable (hq : q ∈ view.base) (hmatch : p.matches q = true) : q ∈ view.durable p := by
  obtain ⟨subject, predicate, object⟩ := p
  unfold durable
  unfold QuadPattern.matches at hmatch
  rcases subject with _ | subject <;> rcases predicate with _ | predicate <;>
    simp at hmatch <;> simp [hq, hmatch]

theorem mem_base_of_mem_durable (hq : q ∈ view.durable p) : q ∈ view.base := by
  unfold durable at hq
  split at hq
  · exact (mem_filter.mp hq).1
  · exact (mem_filter.mp hq).1
  · exact hq

theorem durable_sublist (view : DeltaReadView) (p : QuadPattern) :
    (view.durable p).Sublist view.base := by
  unfold durable
  split
  · exact filter_sublist
  · exact filter_sublist
  · exact List.Sublist.refl _

/-- **A scan gives the rows of the view that match.** -/
theorem mem_scan (h : view.index.Sound) :
    q ∈ view.scan p ↔ p.matches q = true ∧ q ∈ view.after := by
  unfold scan
  simp only [mem_filter, mem_append, mem_filterMap, decide_eq_true_eq]
  rw [and_comm]
  refine and_congr_right fun hmatch => ?_
  constructor
  · rintro (⟨hstored, hkept⟩ | ⟨⟨q', present⟩, hentry, hadded⟩)
    · cases hstate : view.index.states[q]? with
      | none => exact .inr ⟨hstate, mem_base_of_mem_durable hstored⟩
      | some present =>
        cases present with
        | true => exact .inl hstate
        | false => exact absurd hstate hkept
    · split at hadded
      · rename_i hlive
        cases hadded
        obtain rfl : present = true := hlive.1
        exact .inl (DeltaIndex.states_of_mem_overlay h hentry)
      · cases hadded
  · rintro (hstate | ⟨hstate, hbase⟩)
    · by_cases hgiven : q ∈ view.durable p
      · exact .inl ⟨hgiven, by rw [hstate]; simp⟩
      · refine .inr ⟨(q, true), DeltaIndex.mem_overlay h hstate hmatch, ?_⟩
        rw [if_pos ⟨rfl, fun hmem => hgiven hmem.1⟩]
    · exact .inl ⟨mem_durable hbase hmatch, by rw [hstate]; simp⟩

/-- **A scan gives every row once.** -/
theorem nodup_scan (h : view.index.Sound) (hbase : view.base.Nodup) : (view.scan p).Nodup := by
  refine List.Nodup.filter _ (nodup_append.mpr ⟨?_, ?_, ?_⟩)
  · exact (hbase.sublist (durable_sublist view p)).filter _
  · refine (DeltaIndex.nodup_overlay view.index p).of_map.filterMap fun e e' q he he' => ?_
    rw [Option.mem_def, Option.ite_none_right_eq_some] at he he'
    exact Prod.ext (Option.some.inj (he.2.trans he'.2.symm)) (he.1.1.trans he'.1.1.symm)
  · -- a row that is kept and inserted was given by the stored range
    rintro a ha b hb rfl
    obtain ⟨hstored, _⟩ := mem_filter.mp ha
    obtain ⟨⟨q', present⟩, hentry, hadded⟩ := mem_filterMap.mp hb
    split at hadded
    · rename_i hlive
      cases hadded
      obtain rfl : present = true := hlive.1
      have hstate := DeltaIndex.states_of_mem_overlay h hentry
      exact hlive.2 (mem_filter.mpr ⟨hstored, decide_eq_true hstate⟩)
    · cases hadded

/-- A lookup finds a row of the view that matches. -/
theorem existsMatch_iff (h : view.index.Sound) :
    view.existsMatch p = true ↔ ∃ q ∈ view.after, p.matches q = true := by
  have hscan : (!(view.scan p).isEmpty) = true ↔ ∃ q ∈ view.after, p.matches q = true := by
    rw [Bool.not_eq_true', isEmpty_eq_false_iff_exists_mem]
    refine exists_congr fun q => ?_
    rw [mem_scan h, and_comm]
  unfold existsMatch
  split
  · rename_i subject predicate object hs hp ho
    have hmatch : ∀ q : Triple, p.matches q = true ↔ q = ⟨subject, predicate, object⟩ := by
      rintro ⟨qs, qp, qo⟩
      unfold QuadPattern.matches
      rw [hs, hp, ho]
      simp only [Option.all_some, Bool.and_eq_true, decide_eq_true_eq, Triple.mk.injEq, and_assoc]
      rw [eq_comm, @eq_comm _ predicate, @eq_comm _ object]
    have hpoint : (∃ q ∈ view.after, p.matches q = true) ↔
        (⟨subject, predicate, object⟩ : Triple) ∈ view.after := by
      constructor
      · rintro ⟨q, hq, hm⟩
        exact (hmatch q).mp hm ▸ hq
      · exact fun hq => ⟨_, hq, (hmatch _).mpr rfl⟩
    rw [hpoint]
    unfold after
    rw [Set.mem_ofPred_eq]
    dsimp only
    split
    · rename_i present hstate
      rw [hstate]
      simp
    · rename_i hstate
      rw [hstate]
      simp
  · exact hscan

end DeltaReadView

end Craqle
