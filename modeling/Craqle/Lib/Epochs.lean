import Mathlib.Data.List.Count
import Mathlib.Data.Nat.Basic

/-! # Epochs of a commit log

A log of batches that are written, published and returned in this order. Publication bumps an epoch
for every shard that the batch touches. The epochs are counters of a fixed width.

A value that was read from the first `n` batches *covers* an epoch of a shard if these contain every
batch whose publication had brought the shard to at most that epoch. As long as no counter wraps
around, covering is stable: no later step of the log ends it (`Covers.mono`). A cache whose keys carry
the epoch is therefore never stale, whoever fills it and whenever.

To say which epoch a publication has brought a shard to, the lemmas carry stamps beside the log
(`Stamped`); `Continues` says how a step may change both.
-/

namespace Epochs

open List Function

universe u

/-- A log of batches, each known by its place. -/
structure Log (β : Type u) where
  history : List β
  published : List Nat
  returned : List Nat
  epochs : Nat → Nat

/-- One more on the counter of a shard. -/
def bump (modulus : Nat) (epochs : Nat → Nat) (shard : Nat) : Nat → Nat :=
  Function.update epochs shard ((epochs shard + 1) % modulus)

/-- Counters that do not wrap around count. -/
theorem foldl_bump {modulus : Nat} {shards : List Nat} {epochs : Nat → Nat}
    (hfits : ∀ shard, epochs shard + shards.count shard < modulus) (shard : Nat) :
    shards.foldl (bump modulus) epochs shard = epochs shard + shards.count shard := by
  induction shards generalizing epochs with
  | nil => simp
  | cons first rest ih =>
    have hvalue : ∀ s, bump modulus epochs first s = epochs s + if s = first then 1 else 0 := by
      intro s
      by_cases hs : s = first
      · subst hs
        have := hfits s
        rw [count_cons_self] at this
        rw [bump, update_self, if_pos rfl, Nat.mod_eq_of_lt (by omega)]
      · rw [bump, update_of_ne hs, if_neg hs, Nat.add_zero]
    have hcount : ∀ s, (first :: rest).count s = rest.count s + if s = first then 1 else 0 := by
      intro s
      by_cases hs : s = first
      · subst hs
        rw [count_cons_self, if_pos rfl]
      · rw [count_cons_of_ne (Ne.symm hs), if_neg hs, Nat.add_zero]
    have hfits' : ∀ s, bump modulus epochs first s + rest.count s < modulus := by
      intro s
      have := hfits s
      rw [hcount] at this
      rw [hvalue]
      omega
    rw [foldl_cons, ih hfits', hvalue, hcount]
    omega

namespace Log

variable {β : Type u} (shards : β → List Nat) (modulus : Nat)

/-- A batch becomes durable. -/
def write (log : Log β) (batch : β) : Log β := { log with history := log.history ++ [batch] }

def publish (log : Log β) (k : Nat) (batch : β) : Log β :=
  { log with
    published := k :: log.published
    epochs := (shards batch).foldl (bump modulus) log.epochs }

/-- The call that wrote a batch returns. -/
def giveBack (log : Log β) (k : Nat) : Log β := { log with returned := k :: log.returned }

def advance (log : Log β) (shard : Nat) : Log β :=
  { log with epochs := bump modulus log.epochs shard }

def Touches (log : Log β) (k shard : Nat) : Prop :=
  ∃ batch, log.history[k]? = some batch ∧ shard ∈ shards batch

/-- What a reader finds in the store after the first batches. -/
def upTo (log : Log β) (n : Nat) : List β := log.history.take n

end Log

section Covers

variable {β : Type u} (shards : β → List Nat)

/-- Every publication has a stamp: the epoch that it has brought a shard to. -/
structure Stamped (log : Log β) (stamp : Nat → Nat → Nat) : Prop where
  published_lt : ∀ k ∈ log.published, k < log.history.length
  returned : ∀ k ∈ log.returned, k ∈ log.published
  le_epoch : ∀ k ∈ log.published, ∀ shard, log.Touches shards k shard →
    stamp k shard ≤ log.epochs shard

structure Covers (log : Log β) (stamp : Nat → Nat → Nat) (shard epoch n : Nat) : Prop where
  le_length : n ≤ log.history.length
  le_epoch : epoch ≤ log.epochs shard
  contains : ∀ k ∈ log.published, log.Touches shards k shard → stamp k shard ≤ epoch → k < n

/-- How a log goes on. -/
structure Continues (log : Log β) (stamp : Nat → Nat → Nat) (log' : Log β)
    (stamp' : Nat → Nat → Nat) : Prop where
  upTo : ∀ n ≤ log.history.length, log'.upTo n = log.upTo n
  length_le : log.history.length ≤ log'.history.length
  epoch_le : ∀ shard, log.epochs shard ≤ log'.epochs shard
  published : ∀ k ∈ log.published, k ∈ log'.published
  returned : ∀ k ∈ log.returned, k ∈ log'.returned
  touches : ∀ k ∈ log.published, ∀ shard, log'.Touches shards k shard → log.Touches shards k shard
  stamp_eq : ∀ k ∈ log.published, ∀ shard, stamp' k shard = stamp k shard
  later : ∀ k ∈ log'.published, k ∉ log.published → ∀ shard, log'.Touches shards k shard →
    log.epochs shard < stamp' k shard

variable {shards} {log log' : Log β} {stamp stamp' : Nat → Nat → Nat} {shard epoch n : Nat}

/-- **Covering is stable.** -/
theorem Covers.mono (h : Covers shards log stamp shard epoch n)
    (hext : Continues shards log stamp log' stamp') : Covers shards log' stamp' shard epoch n where
  le_length := Nat.le_trans h.le_length hext.length_le
  le_epoch := Nat.le_trans h.le_epoch (hext.epoch_le shard)
  contains k hk htouches hstamp := by
    by_cases hold : k ∈ log.published
    · rw [hext.stamp_eq k hold] at hstamp
      exact h.contains k hold (hext.touches k hold shard htouches) hstamp
    · -- a later publication has brought the shard beyond the epoch
      have hlater := hext.later k hk hold shard htouches
      have hepoch := h.le_epoch
      omega

theorem Covers.anti (h : Covers shards log stamp shard epoch n) {epoch' : Nat}
    (hle : epoch' ≤ epoch) : Covers shards log stamp shard epoch' n where
  le_length := h.le_length
  le_epoch := Nat.le_trans hle h.le_epoch
  contains k hk htouches hstamp := h.contains k hk htouches (Nat.le_trans hstamp hle)

end Covers

section Steps

variable {β : Type u} {shards : β → List Nat} {modulus : Nat} {log : Log β}
  {stamp : Nat → Nat → Nat} {batch : β} {shard : Nat}

theorem Log.touches_write {k : Nat} (hk : k < log.history.length) :
    (log.write batch).Touches shards k shard ↔ log.Touches shards k shard := by
  rw [Touches, Touches, write, getElem?_append_left hk]

theorem Stamped.write (h : Stamped shards log stamp) (batch : β) :
    Stamped shards (log.write batch) stamp where
  published_lt k hk := by
    have hlt := h.published_lt k hk
    simp only [Log.write, length_append]
    omega
  returned := h.returned
  le_epoch k hk shard htouches :=
    h.le_epoch k hk shard ((Log.touches_write (h.published_lt k hk)).mp htouches)

theorem Stamped.continues_write (h : Stamped shards log stamp) (batch : β) :
    Continues shards log stamp (log.write batch) stamp where
  upTo n hn := take_append_of_le_length hn
  length_le := by simp [Log.write]
  epoch_le _ := Nat.le_refl _
  published _ hk := hk
  returned _ hk := hk
  touches k hk _ htouches := (Log.touches_write (h.published_lt k hk)).mp htouches
  stamp_eq _ _ _ := rfl
  later k hk hnew := absurd hk hnew

/-- Publication without wrapping around: every touched shard gets a new epoch. -/
theorem Log.publish_epochs
    (hfits : ∀ shard, log.epochs shard + (shards batch).count shard < modulus) (k shard : Nat) :
    (log.publish shards modulus k batch).epochs shard =
      log.epochs shard + (shards batch).count shard :=
  foldl_bump hfits shard

def stampNow (stamp : Nat → Nat → Nat) (k : Nat) (log : Log β) : Nat → Nat → Nat :=
  Function.update stamp k log.epochs

theorem Stamped.publish (h : Stamped shards log stamp) {k : Nat}
    (hbatch : log.history[k]? = some batch)
    (hfits : ∀ shard, log.epochs shard + (shards batch).count shard < modulus) :
    Stamped shards (log.publish shards modulus k batch)
      (stampNow stamp k (log.publish shards modulus k batch)) where
  published_lt j hj := by
    rcases List.mem_cons.mp hj with rfl | hj
    · exact (List.getElem?_eq_some_iff.mp hbatch).1
    · exact h.published_lt j hj
  returned j hj := mem_cons_of_mem _ (h.returned j hj)
  le_epoch j hj shard htouches := by
    by_cases hjk : j = k
    · subst hjk
      rw [stampNow, update_self]
    · have hold := h.le_epoch j ((mem_cons.mp hj).resolve_left hjk) shard htouches
      rw [stampNow, update_of_ne hjk, Log.publish_epochs hfits]
      omega

theorem Stamped.continues_publish {k : Nat} (hbatch : log.history[k]? = some batch)
    (hnew : k ∉ log.published)
    (hfits : ∀ shard, log.epochs shard + (shards batch).count shard < modulus) :
    Continues shards log stamp (log.publish shards modulus k batch)
      (stampNow stamp k (log.publish shards modulus k batch)) where
  upTo _ _ := rfl
  length_le := Nat.le_refl _
  epoch_le shard := by
    rw [Log.publish_epochs hfits]
    omega
  published _ hj := mem_cons_of_mem _ hj
  returned _ hj := hj
  touches _ _ _ htouches := htouches
  stamp_eq j hj shard := by
    have hne : j ≠ k := fun heq => hnew (heq ▸ hj)
    rw [stampNow, update_of_ne hne]
  later j hj hold shard htouches := by
    obtain rfl : j = k := (mem_cons.mp hj).resolve_right hold
    obtain ⟨batch', hbatch', hshard⟩ := htouches
    cases hbatch.symm.trans hbatch'
    have hcount : 0 < (shards batch).count shard := count_pos_iff.mpr hshard
    rw [stampNow, update_self, Log.publish_epochs hfits]
    omega

theorem Stamped.giveBack (h : Stamped shards log stamp) {k : Nat} (hk : k ∈ log.published) :
    Stamped shards (log.giveBack k) stamp where
  published_lt := h.published_lt
  returned j hj := (mem_cons.mp hj).elim (fun heq => heq ▸ hk) (h.returned j)
  le_epoch := h.le_epoch

theorem continues_giveBack (k : Nat) : Continues shards log stamp (log.giveBack k) stamp where
  upTo _ _ := rfl
  length_le := Nat.le_refl _
  epoch_le _ := Nat.le_refl _
  published _ hj := hj
  returned _ hj := mem_cons_of_mem _ hj
  touches _ _ _ htouches := htouches
  stamp_eq _ _ _ := rfl
  later _ hj hold := absurd hj hold

theorem Log.le_advance_epochs (hfits : log.epochs shard + 1 < modulus) (s : Nat) :
    log.epochs s ≤ (log.advance modulus shard).epochs s := by
  show log.epochs s ≤ update log.epochs shard _ s
  by_cases hs : s = shard
  · subst hs
    rw [update_self, Nat.mod_eq_of_lt hfits]
    omega
  · rw [update_of_ne hs]

theorem Stamped.advance (h : Stamped shards log stamp)
    (hfits : log.epochs shard + 1 < modulus) : Stamped shards (log.advance modulus shard) stamp where
  published_lt := h.published_lt
  returned := h.returned
  le_epoch k hk s htouches :=
    Nat.le_trans (h.le_epoch k hk s htouches) (Log.le_advance_epochs hfits s)

theorem continues_advance (hfits : log.epochs shard + 1 < modulus) :
    Continues shards log stamp (log.advance modulus shard) stamp where
  upTo _ _ := rfl
  length_le := Nat.le_refl _
  epoch_le := Log.le_advance_epochs hfits
  published _ hj := hj
  returned _ hj := hj
  touches _ _ _ htouches := htouches
  stamp_eq _ _ _ := rfl
  later _ hj hold := absurd hj hold

end Steps

end Epochs
