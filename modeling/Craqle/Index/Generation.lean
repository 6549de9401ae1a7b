import Craqle.Lib.Transition
import Mathlib.Order.Lattice

/-! # Query-id generations

`generation_floor` is the greatest generation that a process has seen. Every header that
`snapshot_index_header` reads raises it, and `next_generation` raises it to a candidate of its own
until the candidate is above what was there. Any number of calls race on the one atomic.

A generation that a call returns is new (`next_generation_fresh`), as long as there is a greater
one. Beyond the last one the candidate starts again at 1, and a call loops forever
(`next_generation_hangs`).
-/

namespace Craqle

open Transition

/-- `u64::MAX`. -/
def maxGeneration : Nat := 0xffffffffffffffff

/-- `generation.checked_add(1).unwrap_or(1)`. -/
def generationAfter (generation : Nat) : Nat :=
  if generation < maxGeneration then generation + 1 else 1

/-- A call of `next_generation`, between two iterations of its loop. -/
structure GenerationCall where
  previous : Nat
  /-- The generations that were read before the call began. -/
  readBefore : List Nat
  generation : Nat
  iterations : Nat
  returned : Bool

def GenerationCall.start (previous : Nat) (read : List Nat) : GenerationCall :=
  ⟨previous, read, generationAfter previous, 0, false⟩

structure GenerationState (ι : Type) where
  floor : Nat
  read : List Nat
  calls : ι → Option GenerationCall

inductive GenerationStep (ι : Type) where
  | readHeader (generation : Nat)
  | call (i : ι) (previous : Nat)
  | fetchMax (i : ι)

variable {ι : Type} [DecidableEq ι]

def GenerationState.setCall (s : GenerationState ι) (i : ι) (c : GenerationCall) :
    GenerationState ι :=
  { s with calls := Function.update s.calls i (some c) }

/-- One iteration of the loop in `next_generation`. -/
def GenerationState.fetchMax (s : GenerationState ι) (i : ι) (c : GenerationCall) :
    GenerationState ι :=
  if s.floor < c.generation then
    { s with floor := c.generation }.setCall i { c with returned := true }
  else
    s.setCall i { c with generation := generationAfter s.floor, iterations := c.iterations + 1 }

variable (ι) in
/-- A process; a call has an index of its own. -/
def generationSystem : System (GenerationState ι) (GenerationStep ι) where
  init s := s = ⟨0, [], fun _ => none⟩
  step s step s' :=
    match step with
    | .readHeader generation => generation ≤ maxGeneration ∧
        s' = { s with floor := max s.floor generation, read := generation :: s.read }
    | .call i previous => previous ≤ maxGeneration ∧ s.calls i = none ∧
        s' = s.setCall i (.start previous s.read)
    | .fetchMax i => ∃ c, s.calls i = some c ∧ c.returned = false ∧ s' = s.fetchMax i c

/-- The value that a call starts from, or finds, is not the last generation. -/
def HasNextGeneration (s : GenerationState ι) : GenerationStep ι → Prop
  | .readHeader _ => True
  | .call _ previous => previous < maxGeneration
  | .fetchMax _ => s.floor < maxGeneration

/-! ## Every interleaving -/

structure GenerationCall.Ok (c : GenerationCall) (floor : Nat) : Prop where
  previous_lt : c.previous < c.generation
  iterations_lt : c.iterations < c.generation
  le_max : c.generation ≤ maxGeneration
  read_le : ∀ g ∈ c.readBefore, g ≤ floor
  fresh : c.returned = true → c.generation ≤ floor ∧ ∀ g ∈ c.readBefore, g < c.generation

variable {c : GenerationCall}

theorem GenerationCall.Ok.mono {floor floor' : Nat} (h : c.Ok floor)
    (hle : floor ≤ floor') : c.Ok floor' where
  previous_lt := h.previous_lt
  iterations_lt := h.iterations_lt
  le_max := h.le_max
  read_le g hg := (h.read_le g hg).trans hle
  fresh hr := ⟨(h.fresh hr).1.trans hle, (h.fresh hr).2⟩

structure GenerationsOk (s : GenerationState ι) : Prop where
  read_le : ∀ g ∈ s.read, g ≤ s.floor
  calls : ∀ i c, s.calls i = some c → c.Ok s.floor
  distinct : ∀ i j c c', s.calls i = some c → s.calls j = some c' → c.returned = true →
    c'.returned = true → c.generation = c'.generation → i = j

variable {s : GenerationState ι}

omit [DecidableEq ι] in
theorem GenerationsOk.raise (h : GenerationsOk s) {floor : Nat}
    (hle : s.floor ≤ floor) : GenerationsOk { s with floor := floor } where
  read_le g hg := (h.read_le g hg).trans hle
  calls i c hc := (h.calls i c hc).mono hle
  distinct := h.distinct

/-- A call changes; if it has returned then with a generation that no other call has. -/
theorem GenerationsOk.setCall (h : GenerationsOk s) {i : ι}
    (hok : c.Ok s.floor)
    (hnew : c.returned = true → ∀ j c', j ≠ i → s.calls j = some c' → c'.returned = true →
      c'.generation < c.generation) : GenerationsOk (s.setCall i c) where
  read_le := h.read_le
  calls j c' hc' := by
    rcases eq_or_ne j i with rfl | hne
    · obtain rfl : c = c' := by simpa [GenerationState.setCall] using hc'
      exact hok
    · exact h.calls j c' (by simpa [GenerationState.setCall, hne] using hc')
  distinct j k c₁ c₂ hj hk hr₁ hr₂ heq := by
    simp only [GenerationState.setCall, Function.update_apply] at hj hk
    split_ifs at hj hk with hji hki hki
    · rw [hji, hki]
    · cases hj
      exact absurd heq (hnew hr₁ k c₂ hki hk hr₂).ne'
    · cases hk
      exact absurd heq (hnew hr₂ j c₁ hji hj hr₁).ne
    · exact h.distinct j k c₁ c₂ hj hk hr₁ hr₂ heq

theorem generationAfter_of_lt {generation : Nat} (h : generation < maxGeneration) :
    generationAfter generation = generation + 1 :=
  if_pos h

theorem GenerationsOk.fetchMax (h : GenerationsOk s) {i : ι}
    (hc : s.calls i = some c) (hloops : c.returned = false)
    (hroom : s.floor < maxGeneration) : GenerationsOk (s.fetchMax i c) := by
  have hok := h.calls i c hc
  have hprevious := hok.previous_lt
  have hiterations := hok.iterations_lt
  unfold GenerationState.fetchMax
  split_ifs with hlt
  · -- above everything that was read and everything that was returned
    refine (h.raise hlt.le).setCall ⟨hprevious, hiterations, hok.le_max, ?_, ?_⟩ ?_
    · exact fun g hg => (hok.read_le g hg).trans hlt.le
    · exact fun _ => ⟨le_rfl, fun g hg => (hok.read_le g hg).trans_lt hlt⟩
    · exact fun _ j c' _ hc' hr' => ((h.calls j c' hc').fresh hr').1.trans_lt hlt
  · -- the next candidate is above what was there, and that is not below this one
    rw [generationAfter_of_lt hroom]
    refine h.setCall ⟨?_, ?_, hroom, hok.read_le, by simp [hloops]⟩ (by simp [hloops])
    · show c.previous < s.floor + 1
      omega
    · show c.iterations + 1 < s.floor + 1
      omega

theorem generationsOk_reachable
    (h : Reachable (generationSystem ι) HasNextGeneration s) : GenerationsOk s := by
  refine h.invariant (P := GenerationsOk) ?_ ?_
  · rintro s rfl
    exact ⟨by simp, by simp, by simp⟩
  intro s step s' hok hroom hstep
  cases step with
  | readHeader generation =>
    obtain ⟨_, rfl⟩ := hstep
    have hraised := hok.raise (le_max_left s.floor generation)
    refine ⟨fun g hg => ?_, hraised.calls, hraised.distinct⟩
    rcases List.mem_cons.mp hg with rfl | hg
    · exact le_max_right _ _
    · exact hraised.read_le g hg
  | call i previous =>
    obtain ⟨_, _, rfl⟩ := hstep
    have hfirst : generationAfter previous = previous + 1 := generationAfter_of_lt hroom
    rw [GenerationCall.start, hfirst]
    exact hok.setCall ⟨Nat.lt_succ_self previous, Nat.succ_pos previous, hroom, hok.read_le,
      by simp⟩ (by simp)
  | fetchMax i =>
    obtain ⟨c, hc, hloops, rfl⟩ := hstep
    exact hok.fetchMax hc hloops hroom

/-- **Generations are never reused.** In every interleaving of calls and reads in which no call
starts from or finds the last generation: the loop of a call goes round less than 2^64 times, and
the generation it returns is above its previous value, above every generation that was read before
it began, and different from what every other call has returned. -/
theorem next_generation_fresh {s : GenerationState ι}
    (h : Reachable (generationSystem ι) HasNextGeneration s) {i : ι} {c : GenerationCall}
    (hc : s.calls i = some c) :
    c.iterations ≤ maxGeneration ∧ (c.returned = true → c.previous < c.generation ∧
      (∀ g ∈ c.readBefore, g < c.generation) ∧
      ∀ j c', j ≠ i → s.calls j = some c' → c'.returned = true →
        c'.generation ≠ c.generation) := by
  have hok := generationsOk_reachable h
  have hcall := hok.calls i c hc
  constructor
  · have hiterations := hcall.iterations_lt
    have hmax := hcall.le_max
    omega
  · intro hr
    refine ⟨hcall.previous_lt, (hcall.fresh hr).2, fun j c' hne hc' hr' heq => ?_⟩
    exact hne (hok.distinct j i c' c hc' hc hr' hr heq)

theorem next_generation_fresh_raced :
    ∃ (s : GenerationState Bool) (c : GenerationCall),
      Reachable (generationSystem Bool) HasNextGeneration s ∧ s.calls true = some c ∧
      c.returned = true ∧ c.iterations = 1 ∧ c.previous < c.generation ∧
      ∀ g ∈ c.readBefore, g < c.generation := by
  have hinit : Reachable (generationSystem Bool) HasNextGeneration ⟨0, [], fun _ => none⟩ :=
    .init rfl
  have hread := hinit.step (GenerationStep.readHeader 5) trivial ⟨by decide, rfl⟩
  have hcalled := hread.step (GenerationStep.call true 0) (show 0 < maxGeneration by decide)
    ⟨by decide, rfl, rfl⟩
  have hlost := hcalled.step (GenerationStep.fetchMax true)
    (show 5 < maxGeneration by decide) ⟨_, rfl, rfl, rfl⟩
  have hwon := hlost.step (GenerationStep.fetchMax true)
    (show 5 < maxGeneration by decide) ⟨_, rfl, rfl, rfl⟩
  have hfresh := next_generation_fresh (i := true) hwon rfl
  exact ⟨_, _, hwon, rfl, rfl, rfl, (hfresh.2 rfl).1, (hfresh.2 rfl).2.1⟩

/-! ## The last generation -/

/-- A header with the last generation was read, and a call has gone round `n` times. -/
def hungState (n : Nat) : GenerationState Unit :=
  ⟨maxGeneration, [maxGeneration], fun _ => some ⟨0, [maxGeneration], 1, n, false⟩⟩

theorem reachable_hungState (n : Nat) :
    Reachable (generationSystem Unit) anyStep (hungState n) := by
  induction n with
  | zero =>
    have hinit : Reachable (generationSystem Unit) anyStep ⟨0, [], fun _ => none⟩ := .init rfl
    have hread := hinit.step (GenerationStep.readHeader maxGeneration) trivial ⟨le_rfl, rfl⟩
    exact hread.step (GenerationStep.call () 0) trivial ⟨by decide, rfl, rfl⟩
  | succ n ih => exact ih.step (GenerationStep.fetchMax ()) trivial ⟨_, rfl, rfl, rfl⟩

/-- After one header with the generation `u64::MAX` a call goes round any number of times, though
nothing else happens. -/
theorem next_generation_hangs :
    ∃ hung : Nat → GenerationState Unit, ∀ n, Reachable (generationSystem Unit) anyStep (hung n) ∧
      ∃ c, (hung n).calls () = some c ∧ c.iterations = n ∧ c.returned = false :=
  ⟨hungState, fun n => ⟨reachable_hungState n, _, rfl, rfl, rfl⟩⟩

end Craqle
