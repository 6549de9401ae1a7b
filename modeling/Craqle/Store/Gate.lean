import Craqle.Lib.Transition
import Mathlib.Data.List.Nodup

/-! # The query-view gate

`qv_gate.rs`: one owner at a time maintains the query view, and callers that find the gate taken
wait in line. A release hands the gate to the first one in line by writing a new generation into
the slot of that waiter. A waiter whose time runs out leaves the line, unless the handover has
already reached its slot: then it owns the gate after all.

Every block that runs under the lock of the gate, or under the lock of one slot, is a step. All
interleavings keep that the gate's owner is the generation that one call has in hand or in its
slot (`Sole`), and that the line is the calls that still wait, in the order in which they came.

## Stale ownership

An owner releases at most once: `release_once` sets a flag, and the second call (every `finish` is
followed by the drop of the same value) does nothing. The gate does not rely on the flag. A run
counts the generations that were handed out (`grants`). The owner is the latest of them and a
generation that was released is an earlier one (`InTurn`), so `release` refuses it as long as the
`u64` counter has not come round.
-/

namespace Craqle

open List Function

/-- A call of `try_acquire` or `acquire_timeout`, with the waiter that it may queue. -/
abbrev CallId := Nat

structure GateState where
  owner : Option Nat
  nextGeneration : Nat
  waiters : List CallId

namespace GateState

def new : GateState := ⟨none, 1, []⟩

/-- The next generation becomes the owner; the counter is a `u64`. -/
def own (g : GateState) : GateState :=
  { g with
    owner := some g.nextGeneration
    nextGeneration := (g.nextGeneration + 1) % 0x10000000000000000 }

def tryAcquire (g : GateState) : Option (Nat × GateState) :=
  if g.owner.isNone && g.waiters.isEmpty then some (g.nextGeneration, g.own) else none

/-- Release a generation to the first waiter, whose slot receives the new owner. -/
def release (g : GateState) (generation : Nat) : Bool × GateState × Option CallId :=
  if g.owner ≠ some generation then (false, g, none)
  else match g.waiters with
    | [] => (true, { g with owner := none }, none)
    | w :: rest => (true, { g with waiters := rest }.own, some w)

end GateState

/-- Where a call is, with its slot while it may have one. -/
inductive Caller where
  | idle
  /-- In `wait_timeout_while`. -/
  | parked (slot : Option Nat)
  /-- Its time ran out with an empty slot; `remove_waiter` comes next. -/
  | expired (slot : Option Nat)
  /-- `remove_waiter` has not found it in the line, and will read the slot. -/
  | dequeued (slot : Option Nat)
  | holding (generation : Nat)
  /-- `release_once` has set its flag. -/
  | released (generation : Nat)
  | refused

namespace Caller

def grant (owner : Option Nat) : Caller → Caller
  | .parked _ => .parked owner
  | .expired _ => .expired owner
  | phase => phase

/-- The generation that a call has in hand or in its slot. -/
def token : Caller → Option Nat
  | .parked slot | .expired slot | .dequeued slot => slot
  | .holding generation => some generation
  | _ => none

/-- The call is in line: neither handed the gate nor gone. -/
def waits : Caller → Bool
  | .parked none | .expired none => true
  | _ => false

end Caller

/-- The gate and the calls. The history has all calls that ever queued, in their order, and how
often the gate was handed out. -/
structure GateRun where
  gate : GateState
  calls : CallId → Caller
  arrived : List CallId
  grants : Nat

/-- The blocks that a call runs under a lock. -/
inductive GateMove where
  | tryAcquire | acquire | wake | expire | remove | take | drop

namespace GateRun

def start : GateRun := ⟨.new, fun _ => .idle, [], 0⟩

def setCall (s : GateRun) (c : CallId) (phase : Caller) : GateRun :=
  { s with calls := update s.calls c phase }

def queue (s : GateRun) (c : CallId) : GateRun :=
  { s with
    gate := { s.gate with waiters := s.gate.waiters ++ [c] }
    arrived := s.arrived ++ [c] }.setCall c (.parked none)

def enter (s : GateRun) (c : CallId) (otherwise : GateRun) : GateRun :=
  match s.gate.tryAcquire with
  | some (generation, gate) =>
    { s with gate := gate, grants := s.grants + 1 }.setCall c (.holding generation)
  | none => otherwise

def removeWaiter (s : GateRun) (c : CallId) (slot : Option Nat) : GateRun :=
  if c ∈ s.gate.waiters then
    { s with gate := { s.gate with waiters := s.gate.waiters.erase c } }.setCall c .refused
  else s.setCall c (.dequeued slot)

def release (s : GateRun) (c : CallId) (generation : Nat) : GateRun :=
  let (_, gate, next) := s.gate.release generation
  let dropped := { s with gate := gate }.setCall c (.released generation)
  match next with
  | none => dropped
  | some w => { dropped with grants := s.grants + 1 }.setCall w ((s.calls w).grant gate.owner)

def step (s : GateRun) (c : CallId) (move : GateMove) : Option GateRun :=
  match move, s.calls c with
  | .tryAcquire, .idle => some (s.enter c (s.setCall c .refused))
  | .acquire, .idle => some (s.enter c (s.queue c))
  | .wake, .parked (some generation) => some (s.setCall c (.holding generation))
  | .expire, .parked none => some (s.setCall c (.expired none))
  | .remove, .expired slot => some (s.removeWaiter c slot)
  | .take, .dequeued (some generation) => some (s.setCall c (.holding generation))
  | .take, .dequeued none => some (s.setCall c .refused)
  | .drop, .holding generation => some (s.release c generation)
  | .drop, .released _ => some s
  | _, _ => none

def token (s : GateRun) (c : CallId) : Option Nat := (s.calls c).token

def waits (s : GateRun) (c : CallId) : Bool := (s.calls c).waits

end GateRun

def gateSystem : Transition.System GateRun (CallId × GateMove) where
  init s := s = .start
  step s i s' := s.step i.1 i.2 = some s'

/-! ## One owner -/

/-- The owner is the token of one call, and no other call has a token. -/
def Sole (owner : Option Nat) (token : CallId → Option Nat) : Prop :=
  ∃ holder : Option (CallId × Nat), owner = holder.map Prod.snd ∧
    ∀ c g, token c = some g ↔ holder = some (c, g)

namespace Sole

variable {token : CallId → Option Nat} {c : CallId} {g : Nat}

theorem take (h : Sole none token) (c : CallId) (g : Nat) :
    Sole (some g) (update token c (some g)) := by
  obtain ⟨holder, hnone, htoken⟩ := h
  obtain rfl : holder = none := by simpa using hnone.symm
  refine ⟨some (c, g), rfl, fun c' g' => ?_⟩
  by_cases hc : c' = c
  · simp [hc]
  · simp [hc, htoken, Ne.symm hc]

theorem drop {owner : Option Nat} (h : Sole owner token) (hc : token c = some g) :
    owner = some g ∧ Sole none (update token c none) := by
  obtain ⟨holder, rfl, htoken⟩ := h
  obtain rfl := (htoken c g).mp hc
  refine ⟨rfl, none, rfl, fun c' g' => ?_⟩
  by_cases hc' : c' = c
  · simp [hc']
  · simp [hc', htoken, Ne.symm hc']

end Sole

/-- A call that was put in line has arrived, and one that was not found there has a full slot. -/
def Caller.Fits : Caller → Prop → Prop
  | .idle, arrived => ¬ arrived
  | .parked _, arrived | .expired _, arrived => arrived
  | .dequeued slot, _ => slot ≠ none
  | _, _ => True

open GateRun

structure GateCore (s : GateRun) : Prop where
  sole : Sole s.gate.owner s.token
  line : s.gate.waiters = s.arrived.filter s.waits
  nodup : s.arrived.Nodup
  fits : ∀ c, (s.calls c).Fits (c ∈ s.arrived)

/-- **What every interleaving keeps**: one owner, the line in the order of arrival, and nobody
in line before a free gate. -/
structure GateInv (s : GateRun) : Prop extends GateCore s where
  free : s.gate.owner = none → s.gate.waiters = []

variable {s s' : GateRun} {c : CallId} {phase : Caller}

theorem release_nil {g : Nat} (howner : s.gate.owner = some g) (hline : s.gate.waiters = []) :
    s.release c g = { s with gate := { s.gate with owner := none } }.setCall c (.released g) := by
  simp [GateRun.release, GateState.release, howner, hline]

theorem release_cons {g : Nat} {w : CallId} {rest : List CallId}
    (howner : s.gate.owner = some g) (hline : s.gate.waiters = w :: rest) :
    s.release c g =
      ({ s with
        gate := { s.gate with waiters := rest }.own
        grants := s.grants + 1 }.setCall c (.released g)).setCall w
          ((s.calls w).grant (some s.gate.nextGeneration)) := by
  simp [GateRun.release, GateState.release, howner, hline, GateState.own, GateRun.setCall]

/-- A handover fills the slot of a call in line. -/
theorem grant_of_waits {g : Nat} (hw : s.waits c = true) (hc : c ∈ s.arrived) :
    ((s.calls c).grant (some g)).token = some g ∧ ((s.calls c).grant (some g)).waits = false ∧
      ((s.calls c).grant (some g)).Fits (c ∈ s.arrived) := by
  rw [waits] at hw
  cases hcall : s.calls c with
  | parked slot | expired slot => exact ⟨rfl, rfl, hc⟩
  | idle | dequeued slot | holding generation | released generation | refused =>
    rw [hcall] at hw
    cases hw

namespace GateCore

variable (h : GateCore s)
include h

/-- The step of one call is about its own token, place in line and slot. -/
theorem setCall {gate : GateState} {arrived : List CallId} {grants : Nat}
    (hsole : Sole gate.owner (update s.token c phase.token))
    (hline : gate.waiters = arrived.filter (update s.waits c phase.waits))
    (hnodup : arrived.Nodup) (hfits : phase.Fits (c ∈ arrived))
    (hothers : ∀ c', c' ≠ c → (c' ∈ arrived ↔ c' ∈ s.arrived)) :
    GateCore ((⟨gate, s.calls, arrived, grants⟩ : GateRun).setCall c phase) := by
  refine ⟨?_, ?_, hnodup, fun c' => ?_⟩
  · show Sole gate.owner (Caller.token ∘ update s.calls c phase)
    rw [comp_update]
    exact hsole
  · show gate.waiters = arrived.filter (Caller.waits ∘ update s.calls c phase)
    rw [comp_update]
    exact hline
  · by_cases hc : c' = c
    · subst hc
      simpa [GateRun.setCall] using hfits
    · simpa [GateRun.setCall, hc, hothers c' hc] using h.fits c'

theorem sole_same (htoken : phase.token = s.token c) :
    Sole s.gate.owner (update s.token c phase.token) := by
  rw [htoken, update_eq_self]
  exact h.sole

theorem line_same (hwaits : phase.waits = s.waits c) :
    s.gate.waiters = s.arrived.filter (update s.waits c phase.waits) := by
  rw [hwaits, update_eq_self]
  exact h.line

/-- The line without a call that has left it. -/
theorem line_erase (hwaits : phase.waits = false) :
    s.gate.waiters.erase c = s.arrived.filter (update s.waits c phase.waits) := by
  rw [hwaits, h.line, (h.nodup.filter _).erase_eq_filter, filter_filter]
  refine filter_congr fun c' _ => ?_
  by_cases hc : c' = c
  · simp [hc]
  · simp [hc]

theorem waits_of_mem (hc : c ∈ s.gate.waiters) : c ∈ s.arrived ∧ s.waits c = true := by
  rwa [h.line, mem_filter] at hc

end GateCore

namespace GateInv

variable (h : GateInv s)
include h

/-- A call that goes on with the token that it has, and as it stands in the line. -/
theorem keep (htoken : phase.token = s.token c) (hwaits : phase.waits = s.waits c)
    (hfits : phase.Fits (c ∈ s.arrived)) : GateInv (s.setCall c phase) :=
  ⟨h.setCall (h.sole_same htoken) (h.line_same hwaits) h.nodup hfits fun _ _ => Iff.rfl, h.free⟩

theorem enter {otherwise : GateRun} (hidle : s.calls c = .idle)
    (hotherwise : s.gate.tryAcquire = none → GateInv otherwise) :
    GateInv (s.enter c otherwise) := by
  unfold GateRun.enter
  split
  · next hfree =>
    obtain ⟨hguard, heq⟩ := Option.ite_none_right_eq_some.mp hfree
    cases heq
    have hnone : s.gate.owner = none := by simpa using (Bool.and_eq_true_iff.mp hguard).1
    have hsole := h.sole
    rw [hnone] at hsole
    exact ⟨h.setCall (hsole.take c _) (h.line_same (congrArg Caller.waits hidle).symm) h.nodup
      trivial fun _ _ => Iff.rfl, nofun⟩
  · next htaken => exact hotherwise htaken

theorem queue (hidle : s.calls c = .idle) (htaken : s.gate.tryAcquire = none) :
    GateInv (s.queue c) := by
  have hnew : c ∉ s.arrived := by
    have hfits := h.fits c
    rwa [hidle] at hfits
  refine ⟨h.setCall (h.sole_same (congrArg Caller.token hidle).symm) ?_ ?_ mem_concat_self ?_,
    fun hnone => ?_⟩
  · have hold : ∀ c' ∈ s.arrived, update s.waits c true c' = s.waits c' := fun c' hc' =>
      update_of_ne (ne_of_mem_of_not_mem hc' hnew) ..
    show s.gate.waiters ++ [c] = (s.arrived ++ [c]).filter (update s.waits c true)
    rw [filter_append, filter_congr hold, ← h.line]
    simp
  · exact nodup_append_comm.mp (nodup_cons.mpr ⟨hnew, h.nodup⟩)
  · intro c' hc
    simp [hc]
  · have hnone : s.gate.owner = none := hnone
    simp [GateState.tryAcquire, hnone, h.free hnone] at htaken

/-- A call that is still in line leaves it with an empty slot, and else it has a full one. -/
theorem removeWaiter {slot : Option Nat} (hexpired : s.calls c = .expired slot) :
    GateInv (s.removeWaiter c slot) ∧ (c ∈ s.gate.waiters ↔ slot = none) := by
  have hwaits : s.waits c = Caller.waits (.expired slot) := congrArg Caller.waits hexpired
  have harrived : c ∈ s.arrived := by
    have hfits := h.fits c
    rwa [hexpired] at hfits
  have hslot : c ∈ s.gate.waiters ↔ slot = none := by
    rw [h.line, mem_filter, and_iff_right harrived, hwaits]
    cases slot with
    | none => exact iff_of_true rfl rfl
    | some generation => exact iff_of_false nofun nofun
  refine ⟨?_, hslot⟩
  unfold GateRun.removeWaiter
  split
  · next hc =>
    obtain rfl := hslot.mp hc
    refine ⟨h.setCall (h.sole_same (congrArg Caller.token hexpired).symm) (h.line_erase rfl)
      h.nodup trivial fun _ _ => Iff.rfl, fun hnone => ?_⟩
    exact congrArg (·.erase c) (h.free hnone)
  · next hc =>
    have hfull : slot ≠ none := fun heq => hc (hslot.mpr heq)
    obtain ⟨generation, rfl⟩ := Option.ne_none_iff_exists'.mp hfull
    exact h.keep (congrArg Caller.token hexpired).symm hwaits.symm hfull

/-- A release to the first one in line, or to nobody. -/
theorem release {g : Nat} (hc : s.calls c = .holding g) : GateInv (s.release c g) ∧
    match s.gate.waiters with
    | [] => (s.release c g).gate.owner = none
    | w :: _ => ∃ next, (s.release c g).gate.owner = some next ∧
        (s.release c g).token w = some next := by
  obtain ⟨howner, hsole⟩ := h.sole.drop (congrArg Caller.token hc)
  -- the gate without its owner, before the handover
  have hdropped : GateCore
      ({ s with gate := { s.gate with owner := none } }.setCall c (.released g)) :=
    h.setCall hsole (h.line_same (congrArg Caller.waits hc).symm) h.nodup trivial
      fun _ _ => Iff.rfl
  cases hline : s.gate.waiters with
  | nil =>
    rw [release_nil howner hline]
    exact ⟨⟨hdropped, fun _ => hline⟩, rfl⟩
  | cons w rest =>
    obtain ⟨harrived, hw⟩ := h.waits_of_mem (hline ▸ mem_cons_self : w ∈ s.gate.waiters)
    obtain ⟨hgranted, hout, hfits⟩ := grant_of_waits hw harrived (g := s.gate.nextGeneration)
    rw [release_cons howner hline]
    refine ⟨⟨hdropped.setCall ?_ ?_ h.nodup hfits fun _ _ => Iff.rfl, nofun⟩, _, rfl, ?_⟩
    · rw [hgranted]
      exact hdropped.sole.take w _
    · refine Eq.trans ?_ (hdropped.line_erase hout)
      show rest = s.gate.waiters.erase w
      rw [hline, erase_cons_head]
    · simpa [token, setCall] using hgranted

theorem step {move : GateMove} (hstep : s.step c move = some s') : GateInv s' := by
  have hkeep : ∀ {before after : Caller}, s.calls c = before → after.token = before.token →
      after.waits = before.waits → after.Fits (c ∈ s.arrived) → GateInv (s.setCall c after) := by
    rintro before after rfl htoken hwaits hfits
    exact h.keep htoken hwaits hfits
  have hfits := h.fits c
  unfold GateRun.step at hstep
  split at hstep
  · next hc =>
    cases hstep
    exact h.enter hc fun _ => hkeep hc rfl rfl trivial
  · next hc =>
    cases hstep
    exact h.enter hc (h.queue hc)
  · next hc =>
    cases hstep
    exact hkeep hc rfl rfl trivial
  · next hc =>
    cases hstep
    rw [hc] at hfits
    exact hkeep hc rfl rfl hfits
  · next hc =>
    cases hstep
    exact (h.removeWaiter hc).1
  · next hc =>
    cases hstep
    exact hkeep hc rfl rfl trivial
  · next hc =>
    rw [hc] at hfits
    exact absurd rfl hfits
  · next hc =>
    cases hstep
    exact (h.release hc).1
  · cases hstep
    exact h
  · cases hstep

end GateInv

theorem gateInv_reachable (h : Transition.Reachable gateSystem Transition.anyStep s) :
    GateInv s := by
  refine h.invariant (P := GateInv) ?_ fun s i s' hs _ hstep => hs.step hstep
  rintro s rfl
  exact ⟨⟨⟨none, rfl, fun _ _ => iff_of_false nofun nofun⟩, rfl, nodup_nil, fun _ => not_mem_nil⟩,
    fun _ => rfl⟩

/-! ## Generations -/

/-- **Generations are handed out in turn**: the owner is the latest one, and what a call has
released is an earlier one, or the latest if the gate is free. -/
structure InTurn (s : GateRun) : Prop where
  next : s.gate.nextGeneration = (s.grants + 1) % 0x10000000000000000
  latest : ∀ g, s.gate.owner = some g → 0 < s.grants ∧ g = s.grants % 0x10000000000000000
  earlier : ∀ c g, s.calls c = .released g → ∃ i, 0 < i ∧ i ≤ s.grants ∧
    (s.gate.owner ≠ none → i < s.grants) ∧ g = i % 0x10000000000000000

namespace InTurn

variable (h : InTurn s)
include h

theorem keep (hnext : s'.gate.nextGeneration = s.gate.nextGeneration)
    (howner : s'.gate.owner = s.gate.owner) (hgrants : s'.grants = s.grants)
    (hcalls : ∀ c g, s'.calls c = .released g → s.calls c = .released g) : InTurn s' := by
  refine ⟨?_, ?_, fun c g hc => ?_⟩
  · rw [hnext, hgrants]
    exact h.next
  · rw [howner, hgrants]
    exact h.latest
  · rw [howner, hgrants]
    exact h.earlier c g (hcalls c g hc)

/-- The call goes on without a release. -/
theorem setCall (hphase : ∀ g, phase ≠ .released g) : InTurn (s.setCall c phase) := by
  refine h.keep rfl rfl rfl fun c' g hc' => ?_
  by_cases hc : c' = c
  · subst hc
    exact absurd (by simpa [GateRun.setCall] using hc') (hphase g)
  · simpa [GateRun.setCall, hc] using hc'

/-- One more generation is handed out; what was released before is earlier. -/
theorem grant (hnext : s'.gate.nextGeneration = (s.gate.nextGeneration + 1) % 0x10000000000000000)
    (howner : s'.gate.owner = some s.gate.nextGeneration) (hgrants : s'.grants = s.grants + 1)
    (hcalls : ∀ c g, s'.calls c = .released g → s.calls c = .released g ∨ s.gate.owner = some g) :
    InTurn s' := by
  refine ⟨?_, fun g hg => ?_, fun c g hc => ?_⟩
  · rw [hnext, hgrants, h.next]
    omega
  · rw [howner] at hg
    cases hg
    exact ⟨by omega, by rw [hgrants, h.next]⟩
  · rcases hcalls c g hc with hold | howned
    · obtain ⟨i, hpos, hle, -, heq⟩ := h.earlier c g hold
      exact ⟨i, hpos, by omega, fun _ => by omega, heq⟩
    · obtain ⟨hpos, heq⟩ := h.latest g howned
      exact ⟨s.grants, hpos, by omega, fun _ => by omega, heq⟩

theorem enter {otherwise : GateRun} (hotherwise : InTurn otherwise) :
    InTurn (s.enter c otherwise) := by
  unfold GateRun.enter
  split
  · next hfree =>
    obtain ⟨-, heq⟩ := Option.ite_none_right_eq_some.mp hfree
    cases heq
    refine h.grant rfl rfl rfl fun c' g hc' => .inl ?_
    by_cases hc : c' = c
    · simp [GateRun.setCall, hc] at hc'
    · simpa [GateRun.setCall, hc] using hc'
  · exact hotherwise

/-- The calls after a release: only the one that releases comes to have released. -/
theorem release {g : Nat} (howner : s.gate.owner = some g) : InTurn (s.release c g) := by
  have hreleased : ∀ c' g', update s.calls c (.released g) c' = .released g' →
      s.calls c' = .released g' ∨ s.gate.owner = some g' := by
    intro c' g' hc'
    by_cases hc : c' = c
    · subst hc
      rw [update_self] at hc'
      cases hc'
      exact .inr howner
    · rw [update_of_ne hc] at hc'
      exact .inl hc'
  cases hline : s.gate.waiters with
  | nil =>
    rw [release_nil howner hline]
    refine ⟨h.next, nofun, fun c' g' hc' => ?_⟩
    rcases hreleased c' g' hc' with hold | howned
    · obtain ⟨i, hpos, hle, -, hi⟩ := h.earlier c' g' hold
      exact ⟨i, hpos, hle, fun hne => absurd rfl hne, hi⟩
    · obtain ⟨hpos, hi⟩ := h.latest g' howned
      exact ⟨s.grants, hpos, Nat.le_refl _, fun hne => absurd rfl hne, hi⟩
  | cons w rest =>
    rw [release_cons howner hline]
    refine h.grant rfl rfl rfl fun c' g' hc' => ?_
    by_cases hc : c' = w
    · subst hc
      left
      cases hw : s.calls c' with
      | released generation => simpa [GateRun.setCall, hw, Caller.grant] using hc'
      | idle | parked slot | expired slot | dequeued slot | holding generation | refused =>
        simp [GateRun.setCall, hw, Caller.grant] at hc'
    · exact hreleased c' g' (by simpa [GateRun.setCall, hc] using hc')

theorem step {move : GateMove} (hinv : GateInv s) (hstep : s.step c move = some s') :
    InTurn s' := by
  unfold GateRun.step at hstep
  split at hstep
  case h_1 =>
    cases hstep
    exact h.enter (h.setCall fun _ => nofun)
  case h_2 =>
    cases hstep
    have hparked : InTurn (s.setCall c (.parked none)) := h.setCall fun _ => nofun
    exact h.enter (hparked.keep rfl rfl rfl fun _ _ hc => hc)
  case h_5 slot _ =>
    cases hstep
    unfold GateRun.removeWaiter
    split
    · have hrefused : InTurn (s.setCall c .refused) := h.setCall fun _ => nofun
      exact hrefused.keep rfl rfl rfl fun _ _ hc => hc
    · exact h.setCall fun _ => nofun
  case h_8 generation hc =>
    cases hstep
    exact h.release (hinv.sole.drop (congrArg Caller.token hc)).1
  case h_9 =>
    cases hstep
    exact h
  case h_10 => cases hstep
  all_goals
    cases hstep
    exact h.setCall fun _ => nofun

end InTurn

theorem inTurn_reachable (h : Transition.Reachable gateSystem Transition.anyStep s) :
    InTurn s := by
  have hboth := h.invariant (P := fun s => GateInv s ∧ InTurn s) ?_
    fun s i s' hs _ hstep => ⟨hs.1.step hstep, hs.2.step hs.1 hstep⟩
  · exact hboth.2
  · rintro s rfl
    exact ⟨gateInv_reachable (.init rfl), rfl, nofun, nofun⟩

/-- **An orderly gate**: one owner; a release passes the gate to the call that came first of
those in line; a call whose time ran out gives up its place if its slot is empty, and else takes
the gate; someone has the gate when it is taken, and nobody is in line when it is free. A call that
has released its generation releases nothing: its drop does nothing, and until the counter has come
round the gate refuses the generation, whoever owns the gate by then. -/
structure Orderly (s : GateRun) : Prop where
  one_owner : ∀ c c' g g', s.calls c = .holding g → s.calls c' = .holding g' → c = c'
  passes : ∀ c g, s.calls c = .holding g → ∃ s', s.step c .drop = some s' ∧
    match s.arrived.find? s.waits with
    | none => s'.gate.owner = none
    | some w => ∃ next, s'.gate.owner = some next ∧ s'.token w = some next
  gives_up : ∀ c slot, s.calls c = .expired slot → s.step c .remove = some (if slot = none then
    { s with gate := { s.gate with waiters := s.gate.waiters.erase c } }.setCall c .refused
    else s.setCall c (.dequeued slot))
  takes : ∀ c slot, s.calls c = .dequeued slot →
    ∃ g, slot = some g ∧ s.step c .take = some (s.setCall c (.holding g))
  held : ∀ g, s.gate.owner = some g → ∃ c, s.token c = some g
  free : s.gate.owner = none → ∀ c, s.waits c = false
  stale : ∀ c g, s.calls c = .released g → s.step c .drop = some s ∧
    (s.grants ≤ 0x10000000000000000 →
      s.gate.owner ≠ some g ∧ s.gate.release g = (false, s.gate, none))

/-- **The gate in every interleaving.** -/
theorem gate_orderly (hreach : Transition.Reachable gateSystem Transition.anyStep s) :
    Orderly s := by
  have h := gateInv_reachable hreach
  obtain ⟨holder, howner, htoken⟩ := h.sole
  refine ⟨?_, ?_, ?_, ?_, ?_, ?_, ?_⟩
  · intro c c' g g' hc hc'
    have hholder := (htoken c g).mp (congrArg Caller.token hc)
    rw [(htoken c' g').mp (congrArg Caller.token hc')] at hholder
    cases hholder
    rfl
  · intro c g hc
    have hpasses := (h.release hc).2
    refine ⟨s.release c g, by simp only [step, hc], ?_⟩
    rw [← head?_filter, ← h.line]
    cases hline : s.gate.waiters with
    | nil | cons w rest => simpa [hline] using hpasses
  · intro c slot hc
    simp only [step, hc, removeWaiter, (h.removeWaiter hc).2]
  · intro c slot hc
    have hfits := h.fits c
    rw [hc] at hfits
    obtain ⟨g, rfl⟩ := Option.ne_none_iff_exists'.mp hfits
    exact ⟨g, rfl, by simp only [step, hc]⟩
  · intro g hg
    rw [howner, Option.map_eq_some_iff] at hg
    obtain ⟨⟨c, _⟩, hholder, rfl⟩ := hg
    exact ⟨c, (htoken c _).mpr hholder⟩
  · intro hnone c
    have hempty := h.free hnone
    rw [h.line, filter_eq_nil_iff] at hempty
    by_contra hwaits
    refine hempty c ?_ (by simpa using hwaits)
    have hfits := h.fits c
    rw [waits] at hwaits
    cases hc : s.calls c with
    | parked slot | expired slot =>
      rw [hc] at hfits
      exact hfits
    | idle | dequeued slot | holding generation | released generation | refused =>
      rw [hc] at hwaits
      exact absurd rfl hwaits
  · intro c g hc
    refine ⟨by simp only [step, hc], fun hturn => ?_⟩
    have hturns := inTurn_reachable hreach
    obtain ⟨i, hpos, hle, hless, hi⟩ := hturns.earlier c g hc
    have hstale : s.gate.owner ≠ some g := by
      intro howned
      obtain ⟨-, hlatest⟩ := hturns.latest g howned
      have hlt : i < s.grants := hless (by simp [howned])
      omega
    exact ⟨hstale, by rw [GateState.release, if_pos hstale]⟩

/-- The first call has handed the gate to the second, and a third is in line. -/
theorem gate_orderly_line : ∃ s : GateRun, s.calls 0 = .released 1 ∧ s.token 1 = some 2 ∧
    s.gate.owner = some 2 ∧ s.gate.waiters = [2] ∧ Orderly s := by
  obtain ⟨s, hreach, hreleased, htoken, howner, hline⟩ : ∃ s,
      Transition.Reachable gateSystem Transition.anyStep s ∧ s.calls 0 = .released 1 ∧
        s.token 1 = some 2 ∧ s.gate.owner = some 2 ∧ s.gate.waiters = [2] :=
    ⟨_, .step (0, .drop) (.step (2, .acquire) (.step (1, .acquire) (.step (0, .acquire) (.init rfl)
      trivial rfl) trivial rfl) trivial rfl) trivial rfl, rfl, rfl, rfl, rfl⟩
  exact ⟨s, hreleased, htoken, howner, hline, gate_orderly hreach⟩

end Craqle
