import Craqle.Lib.Fallible

/-! # Computations with a state that can fail

Judgements on a computation that threads a state. `Yields` is about what it computes: whenever
it succeeds from a state that keeps an invariant, it returns one fixed value, adds a fixed list to
the output, and keeps the invariant; caches and counters may change. `Keeps` is about how it ends:
it keeps the invariant, or it fails with an error that is allowed. Each has its rules for the
control structures, among them a loop over a list that goes on after a failed check until it is
told to stop (`everyM`). A computation whose result never depends on the state is `Steady`.
-/

namespace Stateful

open List

variable {σ ε α β ω : Type}

abbrev Comp (σ ε α : Type):= StateT σ (Except ε) α

theorem bind_apply (m : Comp σ ε α) (f : α → Comp σ ε β) (s : σ) :
    (m >>= f) s = (m s >>= fun r => f r.1 r.2) := rfl

theorem get_bind_apply (f : σ → Comp σ ε β) (s : σ) :
    ((get : Comp σ ε σ) >>= f) s = f s s := rfl

/-! ## Loops -/

/-- Whether all checks hold. After a check that fails, the loop asks whether to stop. -/
def everyM (stop : Comp σ ε Bool) (check : β → Comp σ ε Bool) : List β → Comp σ ε Bool
  | [] => pure true
  | x :: xs => do
      if ← check x then everyM stop check xs
      else if ← stop then pure false
      else do
        let _ ← everyM stop check xs
        pure false

def countM (check : β → Comp σ ε Bool) : List β → Comp σ ε Nat
  | [] => pure 0
  | x :: xs => do
      let holds ← check x
      let count ← countM check xs
      pure (if holds then count + 1 else count)

/-- Whether a check holds, up to the first one that does. -/
def someM (check : β → Comp σ ε Bool) : List β → Comp σ ε Bool
  | [] => pure false
  | x :: xs => do if ← check x then pure true else someM check xs

/-! ## What a computation yields -/

/-- From a state with the invariant, a successful run returns `a`, adds `os` to the output and
keeps the invariant. -/
def Yields (out : σ → List ω) (I : σ → Prop) (m : Comp σ ε α) (a : α) (os : List ω) : Prop :=
  ∀ ⦃s a' s'⦄, I s → m s = .ok (a', s') → I s' ∧ a' = a ∧ out s' = out s ++ os

variable {out : σ → List ω} {I : σ → Prop}

theorem Yields.pure (a : α) : Yields out I (pure a : Comp σ ε α) a [] := by
  intro s a' s' hI h
  cases h
  exact ⟨hI, rfl, (append_nil _).symm⟩

variable {f : α → Comp σ ε β} {os : List ω} {m : Comp σ ε α}

theorem Yields.bind {a : α} {b : β} {os' : List ω}
    (hm : Yields out I m a os) (hf : Yields out I (f a) b os') :
    Yields out I (m >>= f) b (os ++ os') := by
  intro s b' s'' hI h
  rw [bind_apply] at h
  obtain ⟨⟨a', s'⟩, hrun, hrest⟩ := Fallible.bind_eq_ok.mp h
  obtain ⟨hI', rfl, hout⟩ := hm hI hrun
  obtain ⟨hI'', rfl, hout'⟩ := hf hI' hrest
  exact ⟨hI'', rfl, by rw [hout', hout, append_assoc]⟩

/-- A first step without output. -/
theorem Yields.quietBind {a : α} {b : β}
    (hm : Yields out I m a []) (hf : Yields out I (f a) b os) : Yields out I (m >>= f) b os :=
  hm.bind hf

/-- A last step without output. -/
theorem Yields.bindQuiet {a : α} {b : β}
    (hm : Yields out I m a os) (hf : Yields out I (f a) b []) : Yields out I (m >>= f) b os := by
  have h := hm.bind hf
  rwa [append_nil] at h

theorem Yields.throw (e : ε) (a : α) (os : List ω) :
    Yields out I (throw e : Comp σ ε α) a os := by
  intro s a' s' _ h
  cases h

/-- A computation that begins with a look at the state. -/
theorem Yields.getBind {f : σ → Comp σ ε α} {a : α}
    (h : ∀ s, I s → Yields out I (f s) a os) : Yields out I (get >>= f) a os := by
  intro s a' s' hI hrun
  exact h s hI hI hrun

theorem Yields.modify {f : σ → σ} (hI : ∀ s, I s → I (f s)) (hout : ∀ s, out (f s) = out s ++ os) :
    Yields out I (modify f : Comp σ ε PUnit) ⟨⟩ os := by
  intro s a' s' hs hrun
  cases hrun
  exact ⟨hI s hs, rfl, hout s⟩

variable {stop : Comp σ ε Bool} {check : β → Comp σ ε Bool} {halt : Bool} {b : β → Bool}
  {os : β → List ω}

/-- A loop that stops at failed checks finds out whether all of them hold, if then nothing is
output; one that does not stop has the output of every check. -/
theorem Yields.everyM {xs : List β} (hcheck : ∀ x ∈ xs, Yields out I (check x) (b x) (os x))
    (hstop : Yields out I stop halt []) (hquiet : halt = true → ∀ x ∈ xs, os x = []) :
    Yields out I (everyM stop check xs) (xs.all b) (xs.flatMap os) := by
  induction xs with
  | nil => exact .pure true
  | cons x xs ih =>
    have hrest := ih (fun y hy => hcheck y (mem_cons_of_mem _ hy))
      (fun h y hy => hquiet h y (mem_cons_of_mem _ hy))
    rw [all_cons, flatMap_cons]
    refine (hcheck x mem_cons_self).bind ?_
    cases hx : b x with
    | true => exact hrest
    | false =>
      refine hstop.quietBind ?_
      cases halt with
      | false => exact hrest.bindQuiet (.pure false)
      | true =>
        have hnil : xs.flatMap os = [] := by
          rw [flatMap_eq_nil_iff]
          exact fun y hy => hquiet rfl y (mem_cons_of_mem _ hy)
        rw [hnil]
        exact .pure false

theorem Yields.countM {xs : List β} (hcheck : ∀ x ∈ xs, Yields out I (check x) (b x) []) :
    Yields out I (countM check xs) (xs.countP b) [] := by
  induction xs with
  | nil => exact .pure 0
  | cons x xs ih =>
    refine (hcheck x mem_cons_self).quietBind ?_
    refine (ih fun y hy => hcheck y (mem_cons_of_mem _ hy)).quietBind ?_
    rw [countP_cons]
    cases b x with
    | true => exact .pure _
    | false => exact .pure _

theorem Yields.someM {xs : List β} (hcheck : ∀ x ∈ xs, Yields out I (check x) (b x) []) :
    Yields out I (someM check xs) (xs.any b) [] := by
  induction xs with
  | nil => exact .pure false
  | cons x xs ih =>
    refine (hcheck x mem_cons_self).quietBind ?_
    rw [any_cons]
    cases b x with
    | true => exact .pure true
    | false => exact ih fun y hy => hcheck y (mem_cons_of_mem _ hy)

/-! ## How a computation ends -/

/-- From a state of `P`, a run ends in a state of `Q` or fails with an allowed error. -/
def Ends (P Q : σ → Prop) (allowed : ε → Prop) (m : Comp σ ε α) : Prop :=
  ∀ ⦃s⦄, P s → (∀ a s', m s = .ok (a, s') → Q s') ∧ ∀ e, m s = .error e → allowed e

/-- A run keeps the invariant or fails with an allowed error. -/
abbrev Keeps (I : σ → Prop) (allowed : ε → Prop) (m : Comp σ ε α) : Prop := Ends I I allowed m

section Keeps

variable {P Q R : σ → Prop} {allowed : ε → Prop}

theorem Ends.bind {f : α → Comp σ ε β} (hm : Ends P Q allowed m)
    (hf : ∀ a, Ends Q R allowed (f a)) : Ends P R allowed (m >>= f) := by
  intro s hP
  obtain ⟨hok, herror⟩ := hm hP
  rw [bind_apply]
  cases hrun : m s with
  | error e =>
    refine ⟨fun b s' h => ?_, fun e' h => ?_⟩
    · cases h
    · cases h
      exact herror e hrun
  | ok r => exact hf r.1 (hok r.1 r.2 hrun)

theorem Ends.modify {f : σ → σ} (h : ∀ s, P s → Q (f s)) :
    Ends P Q allowed (modify f : Comp σ ε PUnit) := by
  intro s hP
  refine ⟨fun a s' hrun => ?_, fun e hrun => ?_⟩
  · cases hrun
    exact h s hP
  · cases hrun

theorem Keeps.pure (a : α) : Keeps I allowed (pure a : Comp σ ε α) := by
  intro s hI
  refine ⟨fun a' s' h => ?_, fun e h => ?_⟩
  · cases h
    exact hI
  · cases h

theorem Keeps.bind {f : α → Comp σ ε β} (hm : Keeps I allowed m)
    (hf : ∀ a, Keeps I allowed (f a)) : Keeps I allowed (m >>= f) :=
  Ends.bind hm hf

/-- A first step whose results have a property. -/
theorem Keeps.bindOf {A : α → Prop} {f : α → Comp σ ε β} (hm : Keeps I allowed m)
    (hA : ∀ ⦃s a s'⦄, I s → m s = .ok (a, s') → A a) (hf : ∀ a, A a → Keeps I allowed (f a)) :
    Keeps I allowed (m >>= f) := by
  intro s hI
  obtain ⟨hok, herror⟩ := hm hI
  rw [bind_apply]
  cases hrun : m s with
  | error e =>
    refine ⟨fun b s' h => ?_, fun e' h => ?_⟩
    · cases h
    · cases h
      exact herror e hrun
  | ok r => exact hf r.1 (hA hI hrun) (hok r.1 r.2 hrun)

/-- A computation that begins with a look at the state. -/
theorem Keeps.getBind {f : σ → Comp σ ε α} (h : ∀ s, I s → Keeps I allowed (f s)) :
    Keeps I allowed (get >>= f) :=
  fun s hI => h s hI hI

theorem Keeps.modify {f : σ → σ} (h : ∀ s, I s → I (f s)) :
    Keeps I allowed (modify f : Comp σ ε PUnit) :=
  Ends.modify h

theorem Keeps.throw {e : ε} (h : allowed e) : Keeps I allowed (throw e : Comp σ ε α) := by
  intro s _
  refine ⟨fun a s' hrun => ?_, fun e' hrun => ?_⟩
  · cases hrun
  · cases hrun
    exact h

theorem Keeps.ite {c : Bool} {m' : Comp σ ε α} (h : c = true → Keeps I allowed m)
    (h' : c = false → Keeps I allowed m') : Keeps I allowed (if c then m else m') := by
  cases c with
  | true => exact h rfl
  | false => exact h' rfl

theorem Keeps.everyM {stop : Comp σ ε Bool} {xs : List β}
    (hcheck : ∀ x ∈ xs, Keeps I allowed (check x)) (hstop : Keeps I allowed stop) :
    Keeps I allowed (everyM stop check xs) := by
  induction xs with
  | nil => exact .pure true
  | cons x xs ih =>
    have hrest := ih fun y hy => hcheck y (mem_cons_of_mem _ hy)
    refine (hcheck x mem_cons_self).bind fun holds => .ite (fun _ => hrest) fun _ => ?_
    refine hstop.bind fun halt => .ite (fun _ => .pure false) fun _ => ?_
    exact hrest.bind fun _ => .pure false

theorem Keeps.countM {xs : List β}
    (hcheck : ∀ x ∈ xs, Keeps I allowed (check x)) : Keeps I allowed (countM check xs) := by
  induction xs with
  | nil => exact .pure 0
  | cons x xs ih =>
    refine (hcheck x mem_cons_self).bind fun _ => ?_
    exact (ih fun y hy => hcheck y (mem_cons_of_mem _ hy)).bind fun _ => .pure _

theorem Keeps.someM {xs : List β}
    (hcheck : ∀ x ∈ xs, Keeps I allowed (check x)) : Keeps I allowed (someM check xs) := by
  induction xs with
  | nil => exact .pure false
  | cons x xs ih =>
    refine (hcheck x mem_cons_self).bind fun _ => .ite (fun _ => .pure true) fun _ => ?_
    exact ih fun y hy => hcheck y (mem_cons_of_mem _ hy)

end Keeps

/-! ## Results that do not depend on the state -/

/-- All successful runs return the same, whatever state they start from. -/
def Steady (m : Comp σ ε α) : Prop :=
  ∀ ⦃s a s' t b t'⦄, m s = .ok (a, s') → m t = .ok (b, t') → a = b

theorem Steady.pure (a : α) : Steady (pure a : Comp σ ε α) := by
  intro s b s' t c t' h h'
  cases h
  cases h'
  rfl

theorem Steady.error (e : ε) : Steady (fun _ => .error e : Comp σ ε α) := by
  intro s b s' t c t' h
  cases h

theorem Steady.bind {f : α → Comp σ ε β} (hm : Steady m)
    (hf : ∀ a, Steady (f a)) : Steady (m >>= f) := by
  intro s b s' t c t' h h'
  rw [bind_apply] at h h'
  obtain ⟨⟨a, s₁⟩, hrun, hrest⟩ := Fallible.bind_eq_ok.mp h
  obtain ⟨⟨a', t₁⟩, hrun', hrest'⟩ := Fallible.bind_eq_ok.mp h'
  obtain rfl := hm hrun hrun'
  exact hf a hrest hrest'

/-- A computation that branches on what it knows before it starts. -/
theorem Steady.ite (c : Prop) [Decidable c] {m' : Comp σ ε α} (h : Steady m) (h' : Steady m') :
    Steady (fun s => if c then m s else m' s) := by
  by_cases hc : c
  · simpa only [hc, if_true] using h
  · simpa only [hc, if_false] using h'

open Classical in
/-- What a computation with such results returns, with a value for one that cannot succeed. -/
noncomputable def outcome (m : Comp σ ε α) (otherwise : α) : α :=
  if h : ∃ a s s', m s = .ok (a, s') then h.choose else otherwise

theorem outcome_cases (m : Comp σ ε α) (otherwise : α) :
    (∃ s s', m s = .ok (outcome m otherwise, s')) ∨ outcome m otherwise = otherwise := by
  by_cases h : ∃ a s s', m s = .ok (a, s')
  · rw [outcome, dif_pos h]
    exact .inl h.choose_spec
  · rw [outcome, dif_neg h]
    exact .inr rfl

theorem Steady.eq_outcome (hm : Steady m) {s s' : σ} {a : α}
    (h : m s = .ok (a, s')) (otherwise : α) : a = outcome m otherwise := by
  have hex : ∃ a s s', m s = .ok (a, s') := ⟨a, s, s', h⟩
  obtain ⟨t, t', hchosen⟩ := hex.choose_spec
  rw [outcome, dif_pos hex]
  exact hm h hchosen

end Stateful
