import Craqle.Core.Term
import Craqle.Lib.Transition

/-! # Term ids

A term is stored under the hash of its text. `encode_term_internal` looks the hash up in the
batch's own new terms and in the store, takes the lock of the hash's shard, looks again and adds the
term to the batch. The lock is given back then, and the store has the term when the batch is
committed.

So the lock orders the lookups of two batches and not their commits: two batches that both have
looked up an id before either is committed store one text over the other (`term_overwritten`). When
a term is added only while no other text waits for its id, ids are write-once
(`term_ids_write_once`).
-/

namespace Craqle

open Option

open Transition (System Reachable anyStep)

/-- Where a batch is in `encode_term_internal`. -/
inductive Encoding where
  | idle
  /-- Not found, and about to take the lock. -/
  | waiting (term : Text)
  /-- Not found under the lock, which is held. -/
  | missing (term : Text)
  deriving DecidableEq

inductive BatchStatus where
  | pending
  | committed
  | dropped
  deriving DecidableEq

structure TermBatch (Id : Type) where
  pendingTerms : Id → Option Text
  encoding : Encoding
  status : BatchStatus
  /-- The terms whose id was returned. -/
  interned : List Text
  /-- The terms that got `TermCollision`. -/
  collided : List Text

def TermBatch.new {Id : Type} : TermBatch Id := ⟨fun _ => none, .idle, .pending, [], []⟩

structure TermState (Id ι : Type) where
  terms : Id → Option Text
  batches : ι → TermBatch Id

inductive TermStep (ι : Type) where
  | encode (i : ι) (term : Text)
  | lock (i : ι)
  | insert (i : ι)
  | commit (i : ι)
  | drop (i : ι)

section Model

variable {Id Shard ι : Type} [DecidableEq ι] (hash : Text → Id) (shard : Id → Shard)

/-- The text under an id, as a batch sees it. -/
def TermState.existing (s : TermState Id ι) (i : ι) (id : Id) : Option Text :=
  (s.batches i).pendingTerms id <|> s.terms id

/-- What a lookup leads to; `next` is where it goes on when the id is free. -/
def TermState.lookup (s : TermState Id ι) (i : ι) (term : Text) (next : Encoding) : TermBatch Id :=
  let batch := s.batches i
  match s.existing i (hash term) with
  | none => { batch with encoding := next }
  | some existing =>
    if existing = term then { batch with encoding := .idle, interned := term :: batch.interned }
    else { batch with encoding := .idle, collided := term :: batch.collided }

def TermState.setBatch (s : TermState Id ι) (i : ι) (batch : TermBatch Id) : TermState Id ι :=
  { s with batches := Function.update s.batches i batch }

def TermBatch.insert [DecidableEq Id] (batch : TermBatch Id) (term : Text) : TermBatch Id :=
  { batch with
    pendingTerms := Function.update batch.pendingTerms (hash term) (some term)
    encoding := .idle
    interned := term :: batch.interned }

/-- A batch that is committed puts its terms over the stored ones. -/
def TermState.commit (s : TermState Id ι) (i : ι) : TermState Id ι :=
  { s.setBatch i { s.batches i with status := .committed } with terms := s.existing i }

variable (Id ι) in
def termSystem [DecidableEq Id] : System (TermState Id ι) (TermStep ι) where
  init s := s = ⟨fun _ => none, fun _ => .new⟩
  step s step s' :=
    match step with
    | .encode i term => (s.batches i).status = .pending ∧ (s.batches i).encoding = .idle ∧
        s' = s.setBatch i (s.lookup hash i term (.waiting term))
    | .lock i => ∃ term, (s.batches i).status = .pending ∧ (s.batches i).encoding = .waiting term ∧
        (∀ j held, (s.batches j).encoding = .missing held → shard (hash held) ≠ shard (hash term)) ∧
        s' = s.setBatch i (s.lookup hash i term (.missing term))
    | .insert i => ∃ term, (s.batches i).status = .pending ∧
        (s.batches i).encoding = .missing term ∧ s' = s.setBatch i ((s.batches i).insert hash term)
    | .commit i => (s.batches i).status = .pending ∧ (s.batches i).encoding = .idle ∧
        s' = s.commit i
    | .drop i => (s.batches i).status = .pending ∧
        s' = s.setBatch i { s.batches i with encoding := .idle, status := .dropped }

/-- When a term is added to a batch, no other text waits for its id or is stored under it. -/
def FreeId (s : TermState Id ι) : TermStep ι → Prop
  | .insert i => ∀ term, (s.batches i).encoding = .missing term →
      (∀ t, s.terms (hash term) = some t → t = term) ∧
      ∀ j t, (s.batches j).status = .pending → (s.batches j).pendingTerms (hash term) = some t →
        t = term
  | _ => True

/-! ## Every interleaving -/

variable {hash shard} {s s' : TermState Id ι}

variable (hash) in
/-- What a batch has interned is stored, or will be and nothing else will. -/
structure TermBatch.Ok (terms : Id → Option Text) (b : TermBatch Id) : Prop where
  free : b.status = .pending → ∀ id t t', b.pendingTerms id = some t → terms id = some t' → t = t'
  interned : b.status = .pending → ∀ t ∈ b.interned,
    (b.pendingTerms (hash t) <|> terms (hash t)) = some t
  stored : b.status = .committed → ∀ t ∈ b.interned, terms (hash t) = some t

variable (hash) in
structure TermsOk (s : TermState Id ι) : Prop where
  batches : ∀ i, (s.batches i).Ok hash s.terms
  agree : ∀ i j id t t', (s.batches i).status = .pending → (s.batches j).status = .pending →
    (s.batches i).pendingTerms id = some t → (s.batches j).pendingTerms id = some t' → t = t'

variable {i : ι}

omit [DecidableEq ι] in
/-- A batch that is committed keeps what is stored. -/
theorem TermsOk.existing (h : TermsOk hash s) (hi : (s.batches i).status = .pending) {id : Id}
    {t : Text} (hstored : s.terms id = some t) : s.existing i id = some t := by
  unfold TermState.existing
  cases hpending : (s.batches i).pendingTerms id with
  | none => exact hstored
  | some t' =>
    rw [(h.batches i).free hi id t' t hpending hstored]
    rfl

theorem TermsOk.setBatch (h : TermsOk hash s) {b : TermBatch Id} (hb : b.Ok hash s.terms)
    (hagree : b.status = .pending → ∀ j id t t', (s.batches j).status = .pending →
      b.pendingTerms id = some t → (s.batches j).pendingTerms id = some t' → j ≠ i → t = t') :
    TermsOk hash (s.setBatch i b) where
  batches j := by
    simp only [TermState.setBatch, Function.update_apply]
    split_ifs
    · exact hb
    · exact h.batches j
  agree j k id t t' hj hk ht ht' := by
    simp only [TermState.setBatch, Function.update_apply] at hj hk ht ht'
    split_ifs at hj hk ht ht' with hji hki hki
    · exact some.inj (ht.symm.trans ht')
    · exact hagree hj k id t t' hk ht ht' hki
    · exact (hagree hk j id t' t hj ht' ht hji).symm
    · exact h.agree j k id t t' hj hk ht ht'

section

variable (h : TermsOk hash s) (hi : (s.batches i).status = .pending)
include h hi

/-- A lookup changes neither the new terms of the batch nor its status. -/
theorem TermsOk.lookup
    (term : Text) (next : Encoding) : TermsOk hash (s.setBatch i (s.lookup hash i term next)) := by
  have hok := h.batches i
  have hagree : ∀ j id t t', (s.batches j).status = .pending →
      (s.batches i).pendingTerms id = some t → (s.batches j).pendingTerms id = some t' →
      j ≠ i → t = t' := fun j id t t' hj ht ht' _ => h.agree i j id t t' hi hj ht ht'
  unfold TermState.lookup
  split
  · exact h.setBatch ⟨hok.free, hok.interned, hok.stored⟩ fun _ => hagree
  rename_i existing hexisting
  split_ifs with heq
  · refine h.setBatch ⟨hok.free, fun _ t ht => ?_, by simp [hi]⟩ fun _ => hagree
    rcases List.mem_cons.mp ht with rfl | ht
    · exact heq ▸ hexisting
    · exact hok.interned hi t ht
  · exact h.setBatch ⟨hok.free, hok.interned, hok.stored⟩ fun _ => hagree

theorem TermsOk.insert [DecidableEq Id] {term : Text}
    (hencoding : (s.batches i).encoding = .missing term) (hfree : FreeId hash s (.insert i)) :
    TermsOk hash (s.setBatch i ((s.batches i).insert hash term)) := by
  have hok := h.batches i
  obtain ⟨hstored, hwaits⟩ := hfree term hencoding
  refine h.setBatch ⟨fun _ id t t' ht ht' => ?_, fun _ t ht => ?_, by simp [TermBatch.insert, hi]⟩
    fun _ j id t t' hj ht ht' hne => ?_
  · simp only [TermBatch.insert, Function.update_apply] at ht
    split_ifs at ht with hid
    · subst hid
      rw [hstored t' ht', some.inj ht]
    · exact hok.free hi id t t' ht ht'
  · by_cases hid : hash t = hash term
    · -- a text that is interned under the same id is this one
      have hterm : t = term := by
        rcases List.mem_cons.mp ht with rfl | ht
        · rfl
        have hexisting := hok.interned hi t ht
        rw [hid] at hexisting
        cases hpending : (s.batches i).pendingTerms (hash term) with
        | none => exact hstored t (by simpa [hpending] using hexisting)
        | some t' =>
          rw [hpending] at hexisting
          exact some.inj hexisting ▸ hwaits i t' hi hpending
      subst hterm
      simp [TermBatch.insert]
    · have hold : t ∈ (s.batches i).interned := by
        rcases List.mem_cons.mp ht with rfl | ht
        · exact absurd rfl hid
        · exact ht
      simpa [TermBatch.insert, hid] using hok.interned hi t hold
  · simp only [TermBatch.insert, Function.update_apply] at ht
    split_ifs at ht with hid
    · subst hid
      rw [hwaits j t' hj ht', some.inj ht]
    · exact h.agree i j id t t' hi hj ht ht'

theorem TermsOk.commit :
    TermsOk hash (s.commit i) := by
  have hstored : ∀ id t, s.terms id = some t → s.existing i id = some t := fun id t => h.existing hi
  -- the other batches still agree with what is stored
  have hothers : ∀ j, (s.batches j).Ok hash (s.existing i) := by
    intro j
    have hok := h.batches j
    refine ⟨fun hj id t t' ht ht' => ?_, fun hj t ht => ?_, fun hj t ht => ?_⟩
    · unfold TermState.existing at ht'
      cases hpending : (s.batches i).pendingTerms id with
      | none => exact hok.free hj id t t' ht (by simpa [hpending] using ht')
      | some t'' =>
        rw [hpending] at ht'
        exact some.inj ht' ▸ h.agree j i id t t'' hj hi ht hpending
    · have hexisting := hok.interned hj t ht
      cases hpending : (s.batches j).pendingTerms (hash t) with
      | none =>
        rw [hpending] at hexisting
        exact hstored _ t hexisting
      | some t' => simpa [hpending] using hexisting
    · exact hstored _ t (hok.stored hj t ht)
  have hcommitted : ({ s.batches i with status := .committed } : TermBatch Id).Ok hash
      (s.existing i) :=
    ⟨by simp, by simp, fun _ t ht => (h.batches i).interned hi t ht⟩
  have hbase : TermsOk hash { s with terms := s.existing i } := ⟨hothers, h.agree⟩
  exact hbase.setBatch hcommitted (by simp)

end

variable [DecidableEq Id]

theorem termsOk_step {step : TermStep ι} (h : TermsOk hash s) (hfree : FreeId hash s step)
    (hstep : (termSystem Id ι hash shard).step s step s') : TermsOk hash s' := by
  cases step with
  | encode i term =>
    obtain ⟨hi, _, rfl⟩ := hstep
    exact h.lookup hi term _
  | lock i =>
    obtain ⟨term, hi, _, _, rfl⟩ := hstep
    exact h.lookup hi term _
  | insert i =>
    obtain ⟨term, hi, hencoding, rfl⟩ := hstep
    exact h.insert hi hencoding hfree
  | commit i =>
    obtain ⟨hi, _, rfl⟩ := hstep
    exact h.commit hi
  | drop i =>
    obtain ⟨_, rfl⟩ := hstep
    exact h.setBatch ⟨by simp, by simp, by simp⟩ (by simp)

theorem termsOk_reachable (h : Reachable (termSystem Id ι hash shard) (FreeId hash) s) :
    TermsOk hash s := by
  refine h.invariant (P := TermsOk hash) ?_ fun s i s' hs hfree hstep => termsOk_step hs hfree hstep
  rintro s rfl
  exact ⟨fun _ => ⟨by simp [TermBatch.new], by simp [TermBatch.new], by simp [TermBatch.new]⟩,
    by simp [TermBatch.new]⟩

/-- **Term ids are write-once.** In every interleaving in which a term is added to a batch only
while no other text waits for its id: a stored text stays; and once a batch with a term is
committed, no batch that has interned another text with the same id is, and a lookup of such a text
collides. -/
theorem term_ids_write_once (h : Reachable (termSystem Id ι hash shard) (FreeId hash) s) :
    (∀ step s', (termSystem Id ι hash shard).step s step s' →
      ∀ id t, s.terms id = some t → s'.terms id = some t) ∧
    ∀ i t t', (s.batches i).status = .committed → t ∈ (s.batches i).interned → t ≠ t' →
      hash t = hash t' →
      (∀ j, (s.batches j).status = .committed → t' ∉ (s.batches j).interned) ∧
      ∀ j next, (s.batches j).status = .pending → t' ∈ (s.lookup hash j t' next).collided := by
  have hok := termsOk_reachable h
  constructor
  · intro step s' hstep id t hstored
    cases step with
    | encode i term => exact hstep.2.2 ▸ hstored
    | lock i =>
      obtain ⟨_, _, _, _, rfl⟩ := hstep
      exact hstored
    | insert i =>
      obtain ⟨_, _, _, rfl⟩ := hstep
      exact hstored
    | commit i =>
      obtain ⟨hi, _, rfl⟩ := hstep
      exact hok.existing hi hstored
    | drop i => exact hstep.2 ▸ hstored
  · intro i t t' hi ht hne hid
    have hstored : s.terms (hash t') = some t := hid ▸ (hok.batches i).stored hi t ht
    refine ⟨fun j hj ht' => ?_, fun j next hj => ?_⟩
    · have hstored' := (hok.batches j).stored hj t' ht'
      exact hne (some.inj (hstored.symm.trans hstored'))
    · unfold TermState.lookup
      simp only [hok.existing hj hstored, if_neg hne]
      exact List.mem_cons_self

end Model

theorem term_ids_write_once_second :
    ∃ s : TermState Unit Bool,
      Reachable (termSystem Unit Bool (fun _ => ()) id) (FreeId fun _ => ()) s ∧
      s.terms () = some ['a'] ∧
      ['b'] ∈ (s.lookup (fun _ => ()) true ['b'] (.waiting ['b'])).collided := by
  have hinit : Reachable (termSystem Unit Bool (fun _ => ()) id) (FreeId fun _ => ())
      ⟨fun _ => none, fun _ => .new⟩ := .init rfl
  have hencoded := hinit.step (TermStep.encode false ['a']) trivial ⟨rfl, rfl, rfl⟩
  have hlocked := hencoded.step (TermStep.lock false) trivial
    ⟨['a'], rfl, rfl, by rintro (_ | _) held ⟨⟩, rfl⟩
  have hinserted := hlocked.step (TermStep.insert false)
    (fun _ _ => ⟨by rintro t ⟨⟩, by rintro (_ | _) t _ ⟨⟩⟩) ⟨['a'], rfl, rfl, rfl⟩
  have hcommitted := hinserted.step (TermStep.commit false) trivial ⟨rfl, rfl, rfl⟩
  have honce := (term_ids_write_once hcommitted).2 false ['a'] ['b'] rfl List.mem_cons_self
    (by decide) rfl
  exact ⟨_, hcommitted, rfl, honce.2 true _ rfl⟩

/-- Two batches intern texts with one hash, each under the lock, and then both are committed: the
second text replaces the first, and none of them collides. -/
theorem term_overwritten :
    ∃ s s' : TermState Unit Bool,
      Reachable (termSystem Unit Bool (fun _ => ()) id) anyStep s ∧
      (termSystem Unit Bool (fun _ => ()) id).step s (.commit true) s' ∧
      s.terms () = some ['a'] ∧ s'.terms () = some ['b'] ∧
      ∀ i, (s'.batches i).status = .committed ∧ (s'.batches i).collided = [] := by
  have hinit : Reachable (termSystem Unit Bool (fun _ => ()) id) anyStep
      ⟨fun _ => none, fun _ => .new⟩ := .init rfl
  have hencoded := hinit.step (TermStep.encode false ['a']) trivial ⟨rfl, rfl, rfl⟩
  have hlocked := hencoded.step (TermStep.lock false) trivial
    ⟨['a'], rfl, rfl, by rintro (_ | _) held ⟨⟩, rfl⟩
  have hinserted := hlocked.step (TermStep.insert false) trivial ⟨['a'], rfl, rfl, rfl⟩
  have hencoded' := hinserted.step (TermStep.encode true ['b']) trivial ⟨rfl, rfl, rfl⟩
  have hlocked' := hencoded'.step (TermStep.lock true) trivial
    ⟨['b'], rfl, rfl, by rintro (_ | _) held ⟨⟩, rfl⟩
  have hinserted' := hlocked'.step (TermStep.insert true) trivial ⟨['b'], rfl, rfl, rfl⟩
  have hcommitted := hinserted'.step (TermStep.commit false) trivial ⟨rfl, rfl, rfl⟩
  exact ⟨_, _, hcommitted, ⟨rfl, rfl, rfl⟩, rfl, rfl, by rintro (_ | _) <;> exact ⟨rfl, rfl⟩⟩

end Craqle
