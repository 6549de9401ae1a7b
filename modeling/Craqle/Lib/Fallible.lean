import Mathlib.Data.List.Forall2

/-! # Computations that can fail

What a successful sequence or loop in `Except` says about its steps. Every fallible loop is
a `List.foldlM`; a successful one took every step from some accumulator (`foldlM_mem_ok`),
keeps what each successful step keeps (`foldlM_preserves`), and succeeds when every step does
(`foldlM_total`). One that refuses what it has seen meets nothing twice (`foldlM_nodup`). A loop
that can follow each step of another one follows it to the end (`foldlM_follows`). A successful
`List.mapM` in `Option` pairs elements with results.
-/

namespace Fallible

open List

universe u v

variable {ε : Type u} {α β : Type v} {x : Except ε α}

theorem bind_eq_ok {f : α → Except ε β} {b : β} :
    (x >>= f) = .ok b ↔ ∃ a, x = .ok a ∧ f a = .ok b := by
  cases x with
  | error e | ok a => simp [bind, Except.bind]

/-- A check before a computation can be replaced by one that allows as much. -/
theorem andThen_mono {β : Type} {x x' : Except ε Unit} {y y' : Except ε β} {b : β}
    (hx : x = .ok () → x' = .ok ()) (hy : y = .ok b → y' = .ok b)
    (h : (x >>= fun _ => y) = .ok b) : (x' >>= fun _ => y') = .ok b := by
  obtain ⟨⟨⟩, hxok, hyok⟩ := bind_eq_ok.mp h
  exact bind_eq_ok.mpr ⟨(), hx hxok, hy hyok⟩

theorem map_eq_ok {f : α → β} {b : β} :
    x.map f = .ok b ↔ ∃ a, x = .ok a ∧ f a = b := by
  cases x with
  | error e | ok a => simp [Except.map]

theorem mapError_eq_ok {ε' : Type u} {f : ε → ε'} {a : α} :
    x.mapError f = .ok a ↔ x = .ok a := by
  cases x with
  | error e | ok a => simp [Except.mapError]

theorem toOption_eq_some {a : α} : x.toOption = some a ↔ x = .ok a := by
  cases x with
  | error e | ok a => simp [Except.toOption]

variable {f : β → α → Except ε β} {xs : List α} {acc out : β}

theorem foldlM_cons_eq_ok {x : α} :
    (x :: xs).foldlM f acc = .ok out ↔ ∃ next, f acc x = .ok next ∧ xs.foldlM f next = .ok out := by
  rw [List.foldlM_cons]
  exact bind_eq_ok

theorem foldlM_concat_eq_ok {x : α} :
    (xs ++ [x]).foldlM f acc = .ok out ↔ ∃ next, xs.foldlM f acc = .ok next ∧ f next x = .ok out := by
  rw [foldlM_append, bind_eq_ok]
  refine exists_congr fun next => and_congr_right fun _ => ?_
  rw [foldlM_cons_eq_ok]
  simp [pure, Except.pure]

/-- A loop that only checks succeeds when every check does. -/
theorem forM_eq_ok {f : α → Except ε Unit} :
    xs.forM f = .ok () ↔ ∀ x ∈ xs, f x = .ok () := by
  induction xs with
  | nil => simp [pure, Except.pure]
  | cons x xs ih =>
    have hcons : (x :: xs).forM f = (f x >>= fun _ => xs.forM f) := rfl
    rw [hcons, bind_eq_ok, forall_mem_cons, ← ih]
    exact ⟨fun ⟨_, hx, hxs⟩ => ⟨hx, hxs⟩, fun ⟨hx, hxs⟩ => ⟨(), hx, hxs⟩⟩

/-- A loop that checks every element and appends what it gives. -/
theorem foldlM_collect {γ : Type v} {f : List γ → α → Except ε (List γ)} {P : α → Prop}
    {g : α → List γ} {acc out : List γ}
    (hstep : ∀ x ∈ xs, ∀ acc out, f acc x = .ok out ↔ P x ∧ out = acc ++ g x) :
    xs.foldlM f acc = .ok out ↔ (∀ x ∈ xs, P x) ∧ out = acc ++ xs.flatMap g := by
  induction xs generalizing acc with
  | nil => simp [pure, Except.pure, eq_comm]
  | cons x xs ih =>
    have hrest := fun acc => @ih acc fun y hy => hstep y (mem_cons_of_mem _ hy)
    rw [foldlM_cons_eq_ok, forall_mem_cons, flatMap_cons, ← append_assoc]
    simp only [hstep x mem_cons_self, hrest]
    constructor
    · rintro ⟨_, ⟨hx, rfl⟩, hxs, rfl⟩
      exact ⟨⟨hx, hxs⟩, rfl⟩
    · rintro ⟨⟨hx, hxs⟩, rfl⟩
      exact ⟨_, ⟨hx, rfl⟩, hxs, rfl⟩

/-- Every element of a successful loop was a successful step. -/
theorem foldlM_mem_ok (h : xs.foldlM f acc = .ok out) {x : α} (hx : x ∈ xs) :
    ∃ before next, f before x = .ok next := by
  induction xs generalizing acc with
  | nil => simp at hx
  | cons y ys ih =>
    obtain ⟨next, hstep, hrest⟩ := foldlM_cons_eq_ok.mp h
    rcases mem_cons.mp hx with rfl | hx
    · exact ⟨acc, next, hstep⟩
    · exact ih hrest hx

/-- What every successful step keeps, a successful loop keeps. -/
theorem foldlM_preserves {P : β → Prop}
    (hstep : ∀ x ∈ xs, ∀ acc next, P acc → f acc x = .ok next → P next)
    (h : xs.foldlM f acc = .ok out) (hacc : P acc) : P out := by
  induction xs generalizing acc with
  | nil =>
    cases h
    exact hacc
  | cons x xs ih =>
    obtain ⟨next, hnext, hrest⟩ := foldlM_cons_eq_ok.mp h
    exact ih (fun y hy => hstep y (mem_cons_of_mem _ hy)) hrest
      (hstep x mem_cons_self acc next hacc hnext)

/-- A loop that refuses what it has seen, and remembers the rest, meets nothing twice. -/
theorem foldlM_nodup {γ : Type v} {g : α → γ} {R : β → γ → Prop}
    (hstep : ∀ x acc next, f acc x = .ok next →
      ¬ R acc (g x) ∧ R next (g x) ∧ ∀ c, R acc c → R next c)
    (h : xs.foldlM f acc = .ok out) : (xs.map g).Nodup ∧ ∀ x ∈ xs, ¬ R acc (g x) := by
  induction xs generalizing acc with
  | nil => simp
  | cons x xs ih =>
    obtain ⟨next, hnext, hrest⟩ := foldlM_cons_eq_ok.mp h
    obtain ⟨hnew, hseen, hkept⟩ := hstep x acc next hnext
    obtain ⟨hnodup, hall⟩ := ih hrest
    refine ⟨nodup_cons.mpr ⟨fun hmem => ?_, hnodup⟩, forall_mem_cons.mpr ⟨hnew, ?_⟩⟩
    · obtain ⟨y, hy, heq⟩ := mem_map.mp hmem
      exact hall y hy (heq ▸ hseen)
    · exact fun y hy hold => hall y hy (hkept _ hold)

/-- A loop whose every step succeeds succeeds. -/
theorem foldlM_total (hstep : ∀ x ∈ xs, ∀ acc, ∃ next, f acc x = .ok next) (acc : β) :
    ∃ out, xs.foldlM f acc = .ok out := by
  induction xs generalizing acc with
  | nil => exact ⟨acc, rfl⟩
  | cons x xs ih =>
    obtain ⟨next, hnext⟩ := hstep x mem_cons_self acc
    obtain ⟨out, hout⟩ := ih (fun y hy => hstep y (mem_cons_of_mem _ hy)) next
    exact ⟨out, foldlM_cons_eq_ok.mpr ⟨next, hnext, hout⟩⟩

/-- A loop whose every step leaves the accumulator as it is does nothing. -/
theorem foldlM_fixed (hstep : ∀ x ∈ xs, ∀ acc, f acc x = .ok acc) : xs.foldlM f acc = .ok acc := by
  induction xs with
  | nil => rfl
  | cons x xs ih =>
    exact foldlM_cons_eq_ok.mpr ⟨acc, hstep x mem_cons_self acc,
      ih fun y hy => hstep y (mem_cons_of_mem _ hy)⟩

/-- A loop that follows a successful one step by step succeeds. -/
theorem foldlM_follows {ε' : Type u} {γ : Type v} {g : γ → α → Except ε' γ} {R : β → γ → Prop}
    (hstep : ∀ x b b' c, R b c → f b x = .ok b' → ∃ c', g c x = .ok c' ∧ R b' c') {b b' : β} {c : γ}
    (hR : R b c) (h : xs.foldlM f b = .ok b') : ∃ c', xs.foldlM g c = .ok c' ∧ R b' c' := by
  induction xs generalizing b c with
  | nil =>
    cases h
    exact ⟨c, rfl, hR⟩
  | cons x xs ih =>
    obtain ⟨next, hnext, hrest⟩ := foldlM_cons_eq_ok.mp h
    obtain ⟨c₁, hc₁, hR₁⟩ := hstep x b next c hR hnext
    obtain ⟨c', hc', hR'⟩ := ih hR₁ hrest
    exact ⟨c', foldlM_cons_eq_ok.mpr ⟨c₁, hc₁, hc'⟩, hR'⟩

theorem forall₂_of_mapM {γ δ : Type v} {f : γ → Option δ} {xs : List γ} {ys : List δ}
    (h : xs.mapM f = some ys) : List.Forall₂ (fun x y => f x = some y) xs ys := by
  induction xs generalizing ys with
  | nil =>
    obtain rfl : [] = ys := by simpa using h
    exact List.Forall₂.nil
  | cons x xs ih =>
    rw [mapM_cons] at h
    obtain ⟨y, hy, h⟩ := Option.bind_eq_some_iff.mp h
    obtain ⟨rest, hrest, h⟩ := Option.bind_eq_some_iff.mp h
    obtain rfl : y :: rest = ys := Option.some.inj h
    exact List.Forall₂.cons hy (ih hrest)

end Fallible
