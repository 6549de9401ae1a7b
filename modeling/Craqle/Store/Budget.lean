import Craqle.Index.Spaces
import Craqle.Lib.Transition

/-! # The process memory budget

Every store that opens takes a lease on a budget that all stores of the process share. A reserve
call lowers the process size that counts, also where it fails, and the size is forgotten when a
lease is dropped and nothing is reserved any more. A default budget is shrunk to what is free
before it is reserved (`ProcessBudget.fit`).

The leases that live never add up to more than three quarters of the smallest size that counts
(`memory_never_overcommitted`).
-/

namespace Craqle

open List

open Transition (System Reachable anyStep)

def mib : Nat := 1048576

def defaultStorageBytes : Nat := 128 * mib
def defaultAppBytes : Nat := 128 * mib
def defaultSearchBytes : Nat := 256 * mib
def defaultPreparedBytes : Nat := 64 * mib
def minComponentBytes : Nat := 4 * mib
def minSearchBytes : Nat := 15 * mib
def minStoreBytes : Nat := 3 * minComponentBytes + minSearchBytes
def defaultStoreShare : Nat := 32

inductive MemoryBudgetError where
  | componentsExceedStore
  | storeExceedsProcess
  | missingHeadroom
  | processExhausted (reserved available : Nat)
  deriving DecidableEq

structure MemoryBudget where
  processBytes : Nat
  storeBytes : Nat
  storageBytes : Nat
  applicationBytes : Nat
  searchWriterBytes : Nat
  preparedWorkBytes : Nat
  adaptive : Bool
  deriving DecidableEq

/-! ## Budgets -/

namespace MemoryBudget

def desired : Nat :=
  saturatingAdd (saturatingAdd (saturatingAdd (defaultStorageBytes - minComponentBytes)
    (defaultAppBytes - minComponentBytes)) (defaultSearchBytes - minSearchBytes))
    (defaultPreparedBytes - minComponentBytes)

/-- A component's minimum, and its part of what remains. -/
def scale (remaining component minimum : Nat) : Nat :=
  saturatingAdd minimum (saturatingMul (component - minimum) remaining / desired)

def new (processBytes storeBytes : Nat) : MemoryBudget where
  processBytes := processBytes
  storeBytes := storeBytes
  storageBytes := scale (storeBytes - minStoreBytes) defaultStorageBytes minComponentBytes
  applicationBytes := scale (storeBytes - minStoreBytes) defaultAppBytes minComponentBytes
  searchWriterBytes := scale (storeBytes - minStoreBytes) defaultSearchBytes minSearchBytes
  preparedWorkBytes := scale (storeBytes - minStoreBytes) defaultPreparedBytes minComponentBytes
  adaptive := false

def validate (b : MemoryBudget) : Except MemoryBudgetError Unit :=
  if saturatingAdd (saturatingAdd (saturatingAdd b.storageBytes b.applicationBytes)
      b.searchWriterBytes) b.preparedWorkBytes > b.storeBytes then .error .componentsExceedStore
  else if b.storeBytes > b.processBytes then .error .storeExceedsProcess
  else if b.storeBytes > saturatingMul b.processBytes 3 / 4 then .error .missingHeadroom
  else .ok ()

end MemoryBudget

/-! ## Reservations -/

structure ProcessBudget where
  processBytes : Option Nat
  reservedBytes : Nat

namespace ProcessBudget

/-- The smaller of a process size and the one that counts. -/
def observe (state : ProcessBudget) (process : Nat) : Nat :=
  state.processBytes.elim process (min · process)

/-- The size is kept whether or not the reservation succeeds. -/
def reserve (state : ProcessBudget) (process store : Nat) :
    ProcessBudget × Except MemoryBudgetError Unit :=
  let process := state.observe process
  let available := saturatingMul process 3 / 4
  let reserved := saturatingAdd state.reservedBytes store
  if reserved > available then
    (⟨some process, state.reservedBytes⟩, .error (.processExhausted reserved available))
  else (⟨some process, reserved⟩, .ok ())

def fit (state : ProcessBudget) (budget : MemoryBudget) : MemoryBudget :=
  let free := saturatingMul (state.observe budget.processBytes) 3 / 4 - state.reservedBytes
  let store := max (free / defaultStoreShare) minStoreBytes
  if store ≥ budget.storeBytes then budget
  else { MemoryBudget.new budget.processBytes store with adaptive := true }

def release (state : ProcessBudget) (bytes : Nat) : ProcessBudget :=
  let reserved := state.reservedBytes - bytes
  ⟨if reserved = 0 then none else state.processBytes, reserved⟩

end ProcessBudget

/-- The process budget after the call, and the budget of the lease. -/
def MemoryBudget.reserve (b : MemoryBudget) (state : ProcessBudget) :
    ProcessBudget × Except MemoryBudgetError MemoryBudget :=
  match b.validate with
  | .error e => (state, .error e)
  | .ok () =>
    let budget := if b.adaptive then state.fit b else b
    let (state, result) := state.reserve budget.processBytes budget.storeBytes
    (state, result.map fun _ => budget)

/-! ## Runs -/

/-- The process budget with the leases that live. `observed` has the process sizes of the reserve
calls that passed validation since a drop last left nothing reserved. -/
structure BudgetRun where
  state : ProcessBudget
  leases : List MemoryBudget
  observed : List Nat

def BudgetRun.total (s : BudgetRun) : Nat := (s.leases.map (·.storeBytes)).sum

def BudgetRun.reserve (s : BudgetRun) (b : MemoryBudget) : BudgetRun where
  state := (b.reserve s.state).1
  leases := match (b.reserve s.state).2 with
    | .ok lease => lease :: s.leases
    | .error _ => s.leases
  observed := match b.validate with
    | .ok () => b.processBytes :: s.observed
    | .error _ => s.observed

def BudgetRun.drop (s : BudgetRun) (lease : MemoryBudget) : BudgetRun where
  state := s.state.release lease.storeBytes
  leases := s.leases.erase lease
  observed := if ((s.leases.erase lease).map (·.storeBytes)).sum = 0 then [] else s.observed

inductive BudgetStep where
  | reserve (b : MemoryBudget)
  | drop (lease : MemoryBudget)

def budgetSystem : System BudgetRun BudgetStep where
  init s := s = ⟨⟨none, 0⟩, [], []⟩
  step s i s' := match i with
    | .reserve b => s' = s.reserve b
    | .drop lease => lease ∈ s.leases ∧ s' = s.drop lease

/-! ## What is handed out -/

namespace MemoryBudget

/-- What validation checks, without saturation. -/
theorem validate_eq_ok {b : MemoryBudget} : b.validate = .ok () ↔
    b.storageBytes + b.applicationBytes + b.searchWriterBytes + b.preparedWorkBytes ≤
      b.storeBytes ∧ b.storeBytes ≤ saturatingMul b.processBytes 3 / 4 := by
  unfold validate saturatingMul saturatingAdd u64Max
  split_ifs
  · exact iff_of_false nofun (by omega)
  · exact iff_of_false nofun (by omega)
  · exact iff_of_false nofun (by omega)
  · exact iff_of_true rfl (by omega)

theorem scale_le (remaining component minimum : Nat) :
    scale remaining component minimum ≤ minimum + (component - minimum) * remaining / desired :=
  (min_le_left _ _).trans (Nat.add_le_add_left (Nat.div_le_div_right (min_le_left _ _)) _)

/-- The rounded parts of a store share fit into it. -/
theorem components_new_le (process : Nat) {store : Nat} (h : minStoreBytes ≤ store) :
    (new process store).storageBytes + (new process store).applicationBytes +
      (new process store).searchWriterBytes + (new process store).preparedWorkBytes ≤ store := by
  have hstorage := scale_le (store - minStoreBytes) defaultStorageBytes minComponentBytes
  have hsearch := scale_le (store - minStoreBytes) defaultSearchBytes minSearchBytes
  have hprepared := scale_le (store - minStoreBytes) defaultPreparedBytes minComponentBytes
  have hdesired : desired = 549 * mib := rfl
  have hstore : minStoreBytes = 27 * mib := rfl
  rw [hdesired] at hstorage hsearch hprepared
  simp only [new, defaultStorageBytes, defaultAppBytes, defaultSearchBytes, defaultPreparedBytes,
    minComponentBytes, minSearchBytes, hstore, mib] at *
  omega

end MemoryBudget

/-- A budget that is shrunk still passes validation. -/
theorem ProcessBudget.validate_fit (state : ProcessBudget) {b : MemoryBudget}
    (h : b.validate = .ok ()) :
    (state.fit b).validate = .ok () ∧ (state.fit b).processBytes = b.processBytes := by
  simp only [fit]
  split_ifs with hlarge
  · exact ⟨h, rfl⟩
  · refine ⟨MemoryBudget.validate_eq_ok.mpr ⟨?_, ?_⟩, rfl⟩
    · exact MemoryBudget.components_new_le b.processBytes (le_max_right _ _)
    · exact (Nat.le_of_not_ge hlarge).trans (MemoryBudget.validate_eq_ok.mp h).2

/-- What a reserve call can do. -/
theorem BudgetRun.reserve_cases (s : BudgetRun) (b : MemoryBudget) :
    (∃ e, (b.reserve s.state).2 = .error e) ∧
      (s.reserve b = s ∨ s.reserve b = ⟨⟨some (s.state.observe b.processBytes),
        s.state.reservedBytes⟩, s.leases, b.processBytes :: s.observed⟩) ∨
    ∃ lease, (b.reserve s.state).2 = .ok lease ∧ lease.validate = .ok () ∧
      s.state.reservedBytes + lease.storeBytes ≤
        saturatingMul (s.state.observe b.processBytes) 3 / 4 ∧
      s.reserve b = ⟨⟨some (s.state.observe b.processBytes),
        s.state.reservedBytes + lease.storeBytes⟩, lease :: s.leases,
        b.processBytes :: s.observed⟩ := by
  cases hvalid : b.validate with
  | error e =>
    refine .inl ⟨⟨e, by rw [MemoryBudget.reserve, hvalid]⟩, .inl ?_⟩
    simp [BudgetRun.reserve, MemoryBudget.reserve, hvalid]
  | ok =>
    obtain ⟨budget, hbudget, hok, hprocess⟩ : ∃ budget,
        (if b.adaptive then s.state.fit b else b) = budget ∧ budget.validate = .ok () ∧
          budget.processBytes = b.processBytes := by
      split_ifs
      · exact ⟨_, rfl, s.state.validate_fit hvalid⟩
      · exact ⟨_, rfl, hvalid, rfl⟩
    have hcall : b.reserve s.state = (s.state.reserve b.processBytes budget.storeBytes).map id
        (·.map fun _ => budget) := by
      simp only [MemoryBudget.reserve, hvalid, hbudget, hprocess]
      rfl
    by_cases hfull : saturatingAdd s.state.reservedBytes budget.storeBytes >
        saturatingMul (s.state.observe b.processBytes) 3 / 4
    · rw [ProcessBudget.reserve, if_pos hfull] at hcall
      refine .inl ⟨⟨_, congrArg Prod.snd hcall⟩, .inr ?_⟩
      simp only [BudgetRun.reserve, hcall, hvalid]
      rfl
    -- a sum that saturates is not available
    have hsum : saturatingAdd s.state.reservedBytes budget.storeBytes =
        s.state.reservedBytes + budget.storeBytes := by
      unfold saturatingAdd saturatingMul u64Max at *
      omega
    rw [ProcessBudget.reserve, if_neg hfull, hsum] at hcall
    refine .inr ⟨budget, congrArg Prod.snd hcall, hok, hsum ▸ Nat.le_of_not_gt hfull, ?_⟩
    simp only [BudgetRun.reserve, hcall, hvalid]
    rfl

/-! ## Every run -/

structure BudgetInv (s : BudgetRun) : Prop where
  reserved : s.state.reservedBytes = s.total
  smallest : s.state.processBytes = s.observed.min?
  valid : ∀ lease ∈ s.leases, lease.validate = .ok ()

theorem BudgetInv.observe {s : BudgetRun} (h : BudgetInv s) (process : Nat) :
    some (s.state.observe process) = (process :: s.observed).min? := by
  rw [ProcessBudget.observe, h.smallest, min?_cons]
  simp only [min_comm]

theorem budgetInv_reserve {s : BudgetRun} (h : BudgetInv s) (b : MemoryBudget) :
    BudgetInv (s.reserve b) := by
  rcases s.reserve_cases b with ⟨_, hsame | hfull⟩ | ⟨lease, _, hvalid, _, hdone⟩
  · rw [hsame]
    exact h
  · rw [hfull]
    exact ⟨h.reserved, h.observe _, h.valid⟩
  · rw [hdone]
    refine ⟨?_, h.observe _, forall_mem_cons.mpr ⟨hvalid, h.valid⟩⟩
    simp only [BudgetRun.total, map_cons, sum_cons, h.reserved]
    omega

theorem budgetInv_drop {s : BudgetRun} (h : BudgetInv s) {lease : MemoryBudget}
    (hlease : lease ∈ s.leases) : BudgetInv (s.drop lease) := by
  have hsplit : s.total = lease.storeBytes + ((s.leases.erase lease).map (·.storeBytes)).sum := by
    rw [BudgetRun.total, ((perm_cons_erase hlease).map _).sum_eq, map_cons, sum_cons]
  have hleft : s.state.reservedBytes - lease.storeBytes =
      ((s.leases.erase lease).map (·.storeBytes)).sum := by
    have := h.reserved
    omega
  refine ⟨hleft, ?_, fun l hl => h.valid l (mem_of_mem_erase hl)⟩
  simp only [BudgetRun.drop, ProcessBudget.release, hleft, h.smallest]
  split <;> rfl

theorem budgetInv_reachable {s : BudgetRun} (h : Reachable budgetSystem anyStep s) :
    BudgetInv s := by
  refine h.invariant ?_ ?_
  · rintro s rfl
    exact ⟨rfl, rfl, nofun⟩
  · rintro s (b | lease) s' hs - hstep
    · exact hstep ▸ budgetInv_reserve hs b
    · exact hstep.2 ▸ budgetInv_drop hs hstep.1

/-- **Live stores never overcommit the process budget.** In every state of every run the reserved
bytes are those of the leases that live, each of which passes validation, and a reserve call that
succeeds leaves them at most three quarters of every process size that counts. -/
theorem memory_never_overcommitted {s : BudgetRun} (h : Reachable budgetSystem anyStep s) :
    s.state.reservedBytes = s.total ∧
    (∀ lease ∈ s.leases, lease.validate = .ok () ∧ lease.storageBytes + lease.applicationBytes +
      lease.searchWriterBytes + lease.preparedWorkBytes ≤ lease.storeBytes) ∧
    ∀ b lease, (b.reserve s.state).2 = .ok lease → lease.validate = .ok () ∧
      ∀ process ∈ (s.reserve b).observed, 4 * (s.reserve b).total ≤ 3 * process := by
  have hinv := budgetInv_reachable h
  refine ⟨hinv.reserved, fun lease hlease => ?_, fun b lease hlease => ?_⟩
  · have hvalid := hinv.valid lease hlease
    exact ⟨hvalid, (MemoryBudget.validate_eq_ok.mp hvalid).1⟩
  rcases s.reserve_cases b with ⟨⟨e, herror⟩, _⟩ | ⟨budget, hbudget, hvalid, hroom, hdone⟩
  · rw [herror] at hlease
    cases hlease
  rw [hbudget] at hlease
  cases hlease
  refine ⟨hvalid, fun process hprocess => ?_⟩
  rw [← (budgetInv_reserve hinv b).reserved]
  rw [hdone] at hprocess ⊢
  have hsmall := (min?_eq_some_iff.mp (hinv.observe b.processBytes).symm).2 process hprocess
  unfold saturatingMul at hroom
  dsimp only
  omega

/-- A second lease under a smaller process size. -/
theorem memory_never_overcommitted_second :
    ∃ s : BudgetRun, Reachable budgetSystem anyStep s ∧ s.total = 256 * mib ∧
      4 * (s.reserve (.new (768 * mib) (256 * mib))).total ≤ 3 * (768 * mib) := by
  have hs : Reachable budgetSystem anyStep
      (BudgetRun.reserve ⟨⟨none, 0⟩, [], []⟩ (.new (1024 * mib) (256 * mib))) :=
    .step (.reserve _) (.init rfl) trivial rfl
  obtain ⟨-, -, hreserve⟩ := memory_never_overcommitted hs
  refine ⟨_, hs, by decide +kernel, ?_⟩
  exact (hreserve _ (.new (768 * mib) (256 * mib)) (by decide +kernel)).2 _ (by decide +kernel)

end Craqle
