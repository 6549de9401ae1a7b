import Craqle.Lib.Ordered
import Mathlib.Data.List.Perm.Subperm
import Mathlib.Tactic.Linarith

/-! # A backward search that breaks cycles

Whether a node is below a root, decided by walking from the node to its parents. The search keeps
a stack of frames, one for each node of the path that it is on. A parent that is on the path is
skipped, and the verdict of a frame that skipped one is not remembered unless it is positive: it
holds for paths that avoid the nodes below the frame, and says nothing about others (`Clear`).

The search is right (`search_correct`): a node is below the root exactly when a path avoids nothing.
It ends, because no node is twice on the path: `room` bounds its steps.
-/

namespace Backtrack

open List
open Std (ExtTreeMap ExtTreeSet TransCmp LawfulEqCmp)
open Relation (ReflTransGen)

universe u

variable {α : Type u}

/-! ## Paths from the root -/

/-- There is a path from the root to the node. -/
def Below (root : α) (parents : α → List α) (x : α) : Prop :=
  ReflTransGen (fun p x => p ∈ parents x) root x

/-- There is a path from the root to the node that meets none of some nodes. -/
inductive Clear (root : α) (parents : α → List α) (avoided : List α) : α → Prop
  | root : Clear root parents avoided root
  | step {p x : α} : Clear root parents avoided p → p ∈ parents x → x ∉ avoided →
      Clear root parents avoided x

variable {root : α} {parents : α → List α} {avoided : List α} {x : α}

theorem Clear.isBelow (h : Clear root parents avoided x) : Below root parents x := by
  induction h with
  | root => exact .refl
  | step _ hedge _ ih => exact ih.tail hedge

theorem Below.clear (h : Below root parents x) : Clear root parents [] x := by
  induction h with
  | refl => exact .root
  | tail _ hedge ih => exact ih.step hedge not_mem_nil

theorem Below.exists_parent (h : Below root parents x) (hx : x ≠ root) :
    ∃ p ∈ parents x, Below root parents p := by
  rcases ReflTransGen.cases_tail h with heq | ⟨p, hp, hedge⟩
  · exact absurd heq hx
  · exact ⟨p, hedge, hp⟩

theorem Clear.not_mem (h : Clear root parents avoided x) (hx : x ≠ root) : x ∉ avoided := by
  cases h with
  | root => exact absurd rfl hx
  | step _ _ hnot => exact hnot

/-- A path to a node can be cut where it first meets the node: then a parent has a path that does
not meet it at all. -/
theorem Clear.exists_parent (h : Clear root parents avoided x) (hx : x ≠ root) :
    ∃ p ∈ parents x, Clear root parents (x :: avoided) p := by
  have hcut : ∀ {y}, Clear root parents avoided y → Clear root parents (x :: avoided) y ∨
      ∃ p ∈ parents x, Clear root parents (x :: avoided) p := by
    intro y hy
    induction hy with
    | root => exact .inl .root
    | @step p y _ hedge hnot ih =>
      rcases ih with hp | hfound
      · by_cases hyx : y = x
        · exact .inr ⟨p, hyx ▸ hedge, hp⟩
        · exact .inl (hp.step hedge (by simp [hyx, hnot]))
      · exact .inr hfound
  rcases hcut h with hclear | hfound
  · exact absurd mem_cons_self (hclear.not_mem hx)
  · exact hfound

/-! ## The search -/

/-- A node of the path: the parents that are still to be tried, and what is known of it. -/
structure Frame (α : Type u) where
  entity : α
  parents : List α
  reachable : Bool
  usedCycleBreak : Bool

/-- The verdicts that are remembered, and the nodes of the current path. -/
structure Walk (α : Type u) (cmp : α → α → Ordering) where
  reachable : ExtTreeMap α Bool cmp
  visiting : ExtTreeSet α cmp

variable {cmp : α → α → Ordering} [TransCmp cmp] [DecidableEq α]

def openFrame (parents : α → List α) (w : Walk α cmp) (entity : α) : Walk α cmp × Frame α :=
  ({ w with visiting := w.visiting.insert entity }, ⟨entity, parents entity, false, false⟩)

/-- One turn of the loop: close a frame that is decided, or try its next parent. -/
def step (root : α) (parents : α → List α) (w : Walk α cmp) (top : Frame α)
    (rest : List (Frame α)) (answer : Bool) : Walk α cmp × List (Frame α) × Bool :=
  if top.reachable then
    let w' : Walk α cmp := ⟨w.reachable.insert top.entity true, w.visiting.erase top.entity⟩
    match rest with
    | [] => (w', [], true)
    | parent :: rest => (w', { parent with reachable := true } :: rest, answer)
  else
    match top.parents with
    | [] =>
      let w' : Walk α cmp :=
        ⟨if top.usedCycleBreak then w.reachable else w.reachable.insert top.entity false,
          w.visiting.erase top.entity⟩
      match rest with
      | [] => (w', [], answer)
      | parent :: rest =>
        (w', { parent with
          usedCycleBreak := parent.usedCycleBreak || top.usedCycleBreak } :: rest, answer)
    | candidate :: others =>
      let top := { top with parents := others }
      if candidate = root then (w, { top with reachable := true } :: rest, answer)
      else
        match w.reachable[candidate]? with
        | some reachable => (w, { top with reachable := reachable } :: rest, answer)
        | none =>
          if candidate ∈ w.visiting then
            (w, { top with usedCycleBreak := true } :: rest, answer)
          else
            let opened := openFrame parents w candidate
            (opened.1, opened.2 :: top :: rest, answer)

def search (root : α) (parents : α → List α) :
    Nat → Walk α cmp → List (Frame α) → Bool → Walk α cmp × Bool
  | 0, w, _, answer => (w, answer)
  | _ + 1, w, [], answer => (w, answer)
  | fuel + 1, w, top :: rest, answer =>
    let next := step root parents w top rest answer
    search root parents fuel next.1 next.2.1 next.2.2

/-! ## What every turn keeps -/

/-- What is known of a frame: `older` are the nodes below it on the path, `pending` the parents
that are not decided. -/
structure FrameOk (root : α) (parents : α → List α) (older pending : List α) (f : Frame α) :
    Prop where
  ne_root : f.entity ≠ root
  fresh : f.entity ∉ older
  edges : ∀ p ∈ pending, p ∈ parents f.entity
  sound : f.reachable = true → Below root parents f.entity
  clear : Clear root parents older f.entity →
    f.reachable = true ∨ ∃ p ∈ pending, Clear root parents (f.entity :: older) p
  whole : f.usedCycleBreak = false → Below root parents f.entity →
    f.reachable = true ∨ ∃ p ∈ pending, Below root parents p

/-- The frames of a stack: the node of the frame above is one of the undecided parents. -/
def StackOk (root : α) (parents : α → List α) : Option α → List (Frame α) → Prop
  | _, [] => True
  | above, f :: rest =>
    FrameOk root parents (rest.map (·.entity)) (above.toList ++ f.parents) f ∧
      StackOk root parents (some f.entity) rest

structure Ok (root : α) (parents : α → List α) (entity : α) (w : Walk α cmp)
    (stack : List (Frame α)) (answer : Bool) : Prop where
  memo : ∀ x b, w.reachable[x]? = some b → (b = true ↔ Below root parents x)
  visiting : ∀ x, x ∈ w.visiting ↔ x ∈ stack.map (·.entity)
  frames : StackOk root parents none stack
  bottom : ∀ x, (stack.map (·.entity)).getLast? = some x → x = entity ∧ answer = false
  result : stack = [] → (answer = true ↔ Below root parents entity)

variable {entity : α} {w : Walk α cmp} {top : Frame α} {rest : List (Frame α)} {answer : Bool}

section Step

variable [LawfulEqCmp cmp]

section

variable (h : Ok root parents entity w (top :: rest) answer)
include h

omit [DecidableEq α] in
/-- Closing a frame takes its node off the path. -/
theorem visiting_erase (x : α) :
    x ∈ w.visiting.erase top.entity ↔ x ∈ rest.map (·.entity) := by
  have hfresh := h.frames.1.fresh
  rw [Ordered.mem_erase, h.visiting, map_cons, mem_cons]
  constructor
  · rintro ⟨hne, hx⟩
    exact hx.resolve_left hne
  · intro hx
    exact ⟨fun heq => hfresh (heq ▸ hx), .inr hx⟩

/-- A verdict that is right can be remembered. -/
theorem Ok.memo_insert {y : α} {verdict : Bool} (hy : verdict = true ↔ Below root parents y) (x : α)
    (b : Bool) (hb : (w.reachable.insert y verdict)[x]? = some b) :
    b = true ↔ Below root parents x := by
  rw [Ordered.getElem?_insert] at hb
  split at hb
  · rename_i heq
    rw [← heq, ← Option.some.inj hb]
    exact hy
  · exact h.memo x b hb

end

omit [DecidableEq α] [TransCmp cmp] [LawfulEqCmp cmp] in
/-- A parent that is decided is no longer pending. -/
theorem FrameOk.decide {older others : List α} {c : α} {f : Frame α}
    (h : FrameOk root parents older (c :: others) f) {r u : Bool}
    (hkeep : f.reachable = true → r = true)
    (hfound : r = true → f.reachable = true ∨ Below root parents c)
    (hclear : r = false → ¬ Clear root parents (f.entity :: older) c)
    (hwhole : r = false → u = false → f.usedCycleBreak = false ∧ ¬ Below root parents c) :
    FrameOk root parents older others
      { f with parents := others, reachable := r, usedCycleBreak := u } where
  ne_root := h.ne_root
  fresh := h.fresh
  edges p hp := h.edges p (mem_cons_of_mem c hp)
  sound hr := (hfound hr).elim h.sound fun hc => hc.tail (h.edges c mem_cons_self)
  clear hc := by
    cases r with
    | true => exact .inl rfl
    | false =>
      refine (h.clear hc).imp hkeep fun ⟨p, hp, hpc⟩ => ?_
      rcases mem_cons.mp hp with rfl | hp
      · exact absurd hpc (hclear rfl)
      · exact ⟨p, hp, hpc⟩
  whole hu hb := by
    cases r with
    | true => exact .inl rfl
    | false =>
      obtain ⟨hused, hnot⟩ := hwhole rfl hu
      refine (h.whole hused hb).imp hkeep fun ⟨p, hp, hpb⟩ => ?_
      rcases mem_cons.mp hp with rfl | hp
      · exact absurd hpb hnot
      · exact ⟨p, hp, hpb⟩

omit [DecidableEq α] in
theorem FrameOk.opened {older : List α} {c : α} (hroot : c ≠ root) (hfresh : c ∉ older) :
    FrameOk root parents older (parents c) ⟨c, parents c, false, false⟩ where
  ne_root := hroot
  fresh := hfresh
  edges _ hp := hp
  sound := nofun
  clear hc := .inr (hc.exists_parent hroot)
  whole _ hb := .inr (hb.exists_parent hroot)

variable (h : Ok root parents entity w (top :: rest) answer)
include h

/-- A frame that has found the root is closed with a positive verdict. -/
theorem Ok.closeTrue (hreach : top.reachable = true) :
    let next := step root parents w top rest answer
    Ok root parents entity next.1 next.2.1 next.2.2 := by
  have hbelow := h.frames.1.sound hreach
  have hmemo := h.memo_insert (iff_of_true rfl hbelow)
  unfold step
  rw [if_pos hreach]
  cases rest with
  | nil =>
    refine ⟨hmemo, visiting_erase h, trivial, by simp, fun _ => ?_⟩
    have hentity := (h.bottom top.entity rfl).1
    exact iff_of_true rfl (hentity ▸ hbelow)
  | cons parent rest =>
    obtain ⟨hparent, hrest⟩ := h.frames.2
    have hvisiting := visiting_erase h
    refine ⟨hmemo, hvisiting, ⟨?_, hrest⟩, h.bottom, by simp⟩
    exact hparent.decide (fun _ => rfl) (fun _ => .inr hbelow) nofun nofun

/-- A frame whose parents are all tried is closed with a negative verdict. -/
theorem Ok.closeFalse (hreach : top.reachable = false) (hparents : top.parents = []) :
    let next := step root parents w top rest answer
    Ok root parents entity next.1 next.2.1 next.2.2 := by
  have hframe := h.frames.1
  rw [hparents] at hframe
  have hclear : ¬ Clear root parents (rest.map (·.entity)) top.entity := by
    intro hclear
    rcases hframe.clear hclear with hr | ⟨p, hp, _⟩
    · rw [hreach] at hr
      cases hr
    · cases hp
  have hwhole : top.usedCycleBreak = false → ¬ Below root parents top.entity := by
    intro hused hbelow
    rcases hframe.whole hused hbelow with hr | ⟨p, hp, _⟩
    · rw [hreach] at hr
      cases hr
    · cases hp
  have hmemo : ∀ x b, (if top.usedCycleBreak then w.reachable
      else w.reachable.insert top.entity false)[x]? = some b →
      (b = true ↔ Below root parents x) := by
    split
    · exact h.memo
    · rename_i hused
      exact h.memo_insert (iff_of_false Bool.false_ne_true (hwhole (by simpa using hused)))
  unfold step
  rw [if_neg (by simp [hreach]), hparents]
  cases rest with
  | nil =>
    obtain ⟨hentity, hanswer⟩ := h.bottom top.entity rfl
    refine ⟨hmemo, visiting_erase h, trivial, by simp, fun _ => ?_⟩
    rw [hanswer]
    refine iff_of_false Bool.false_ne_true fun hbelow => hclear ?_
    rw [hentity]
    exact hbelow.clear
  | cons parent rest =>
    obtain ⟨hparent, hrest⟩ := h.frames.2
    have hvisiting := visiting_erase h
    refine ⟨hmemo, hvisiting, ⟨?_, hrest⟩, h.bottom, by simp⟩
    -- no path through the closed node avoids the path below it
    refine hparent.decide id .inl (fun _ => hclear) fun _ hused => ?_
    obtain ⟨hown, htop⟩ := Bool.or_eq_false_iff.mp hused
    exact ⟨hown, hwhole htop⟩

theorem Ok.tryParent (hreach : top.reachable = false) {c : α} {others : List α}
    (hparents : top.parents = c :: others) :
    let next := step root parents w top rest answer
    Ok root parents entity next.1 next.2.1 next.2.2 := by
  obtain ⟨hframe, hrest⟩ := h.frames
  rw [hparents] at hframe
  have hnew : ∀ {r}, top.reachable = true → r = true := fun hr => by simp [hreach] at hr
  have hdecided : ∀ {r u : Bool}, FrameOk root parents (rest.map (·.entity)) others
      { top with parents := others, reachable := r, usedCycleBreak := u } →
      Ok root parents entity w
        ({ top with parents := others, reachable := r, usedCycleBreak := u } :: rest) answer :=
    fun hok => ⟨h.memo, h.visiting, ⟨hok, hrest⟩, h.bottom, by simp⟩
  unfold step
  rw [if_neg (by simp [hreach]), hparents]
  dsimp only
  split
  · rename_i heq
    subst heq
    exact hdecided (hframe.decide hnew (fun _ => .inr .refl) nofun nofun)
  rename_i hroot
  split
  · rename_i verdict hverdict
    have hmemo := h.memo c verdict hverdict
    have hnot : verdict = false → ¬ Below root parents c := by
      intro hfalse hbelow
      rw [hmemo.mpr hbelow] at hfalse
      cases hfalse
    exact hdecided (hframe.decide hnew (fun hr => .inr (hmemo.mp hr))
      (fun hfalse hclear => hnot hfalse hclear.isBelow) fun hfalse hused => ⟨hused, hnot hfalse⟩)
  · split
    · rename_i hvisiting
      have hmem : c ∈ top.entity :: rest.map (·.entity) := (h.visiting c).mp hvisiting
      have hok := hdecided (hframe.decide hnew (r := false) (u := true) nofun
        (fun _ hclear => hclear.not_mem hroot hmem) nofun)
      rw [← hreach] at hok
      exact hok
    · rename_i hvisiting
      have hfresh : c ∉ top.entity :: rest.map (·.entity) := fun hmem =>
        hvisiting ((h.visiting c).mpr hmem)
      refine ⟨h.memo, ?_, ⟨FrameOk.opened hroot hfresh, ?_, hrest⟩, ?_, by simp [openFrame]⟩
      · intro x
        rw [openFrame, Ordered.mem_insert, h.visiting]
        simp
      · exact {
          ne_root := hframe.ne_root
          fresh := hframe.fresh
          edges := hframe.edges
          sound := hframe.sound
          clear := hframe.clear
          whole := hframe.whole }
      · exact fun x hx => h.bottom x (getLast?_cons_cons.symm.trans hx)

/-- **One turn of the loop keeps what is known.** -/
theorem Ok.step :
    let next := step root parents w top rest answer
    Ok root parents entity next.1 next.2.1 next.2.2 := by
  cases hreach : top.reachable with
  | true => exact h.closeTrue hreach
  | false =>
    cases hparents : top.parents with
    | nil => exact h.closeFalse hreach hparents
    | cons c others => exact h.tryParent hreach hparents

end Step

/-! ## The search ends -/

variable (width : Nat)

/-- The steps that a path can take to the other nodes, if so many of them are left. -/
def room : Nat → Nat
  | 0 => 0
  | k + 1 => 2 + width * (1 + room k)

/-- The steps that a stack can still take in a graph with so many nodes. -/
def potential (nodes : Nat) : List (Frame α) → Nat
  | [] => 0
  | f :: rest =>
    2 + f.parents.length * (1 + room width (nodes - (rest.length + 1))) + potential nodes rest

variable {width} {nodes : List α}

omit [DecidableEq α] [TransCmp cmp] in
theorem StackOk.nodup {above : Option α} {stack : List (Frame α)}
    (h : StackOk root parents above stack) : (stack.map (·.entity)).Nodup := by
  induction stack generalizing above with
  | nil => exact nodup_nil
  | cons f rest ih => exact nodup_cons.mpr ⟨h.1.fresh, ih h.2⟩

/-- Every turn uses up some of the steps, and the nodes of the path stay among the given ones. -/
theorem potential_step (hwidth : ∀ x, (parents x).length ≤ width)
    (hnodes : ∀ x, ∀ p ∈ parents x, p ∈ nodes) (h : Ok root parents entity w (top :: rest) answer)
    (hpath : ∀ f ∈ top :: rest, f.entity ∈ nodes) :
    let next := step root parents w top rest answer
    potential width nodes.length next.2.1 < potential width nodes.length (top :: rest) ∧
      ∀ f ∈ next.2.1, f.entity ∈ nodes := by
  obtain ⟨htop, hrest⟩ := forall_mem_cons.mp hpath
  unfold Backtrack.step
  split
  · cases rest with
    | nil => exact ⟨by simp [potential], by simp⟩
    | cons parent rest =>
      exact ⟨by simp only [potential]; omega, forall_mem_cons.mpr (forall_mem_cons.mp hrest)⟩
  · split
    · cases rest with
      | nil => exact ⟨by simp [potential], by simp⟩
      | cons parent rest =>
        exact ⟨by simp only [potential]; omega, forall_mem_cons.mpr (forall_mem_cons.mp hrest)⟩
    · rename_i c others hparents
      -- the parent that is tried pays for the turn, and for the frame that it may open
      have hpay : top.parents.length * (1 + room width (nodes.length - (rest.length + 1))) =
          others.length * (1 + room width (nodes.length - (rest.length + 1))) +
            (1 + room width (nodes.length - (rest.length + 1))) := by
        rw [hparents, length_cons, Nat.succ_mul]
      have hsame : ∀ g : Frame α, g.entity = top.entity → g.parents = others →
          potential width nodes.length (g :: rest) < potential width nodes.length (top :: rest) ∧
            ∀ f ∈ g :: rest, f.entity ∈ nodes := by
        intro g hentity hothers
        refine ⟨by simp only [potential, hothers]; omega, forall_mem_cons.mpr ⟨?_, hrest⟩⟩
        exact hentity ▸ htop
      dsimp only
      split
      · exact hsame _ rfl rfl
      split
      · exact hsame _ rfl rfl
      split
      · exact hsame _ rfl rfl
      rename_i hvisiting
      have hedge : c ∈ parents top.entity :=
        h.frames.1.edges c (mem_append_right _ (hparents ▸ mem_cons_self))
      have hc : c ∈ nodes := hnodes _ c hedge
      have hfresh : c ∉ (top :: rest).map (·.entity) := fun hmem =>
        hvisiting ((h.visiting c).mpr hmem)
      -- the path and the new node are different nodes
      have hlength : (top :: rest).length + 1 ≤ nodes.length := by
        have hnodup : (c :: (top :: rest).map (·.entity)).Nodup :=
          nodup_cons.mpr ⟨hfresh, h.frames.nodup⟩
        have hsub : c :: (top :: rest).map (·.entity) ⊆ nodes := by
          intro x hx
          rcases mem_cons.mp hx with rfl | hx
          · exact hc
          · obtain ⟨f, hf, rfl⟩ := mem_map.mp hx
            exact hpath f hf
        simpa using (subperm_of_subset hnodup hsub).length_le
      obtain ⟨k, hk⟩ : ∃ k, nodes.length - (rest.length + 1) = k + 1 :=
        ⟨nodes.length - (rest.length + 1) - 1, by simp at hlength; omega⟩
      have hk' : nodes.length - (rest.length + 1 + 1) = k := by omega
      have hopen : (parents c).length * (1 + room width k) ≤ width * (1 + room width k) :=
        Nat.mul_le_mul_right _ (hwidth c)
      refine ⟨?_, ?_⟩
      · simp only [openFrame, potential, length_cons, hk', hk] at hpay ⊢
        rw [hpay]
        simp only [room] at hopen ⊢
        omega
      · exact forall_mem_cons.mpr ⟨hc, forall_mem_cons.mpr ⟨htop, hrest⟩⟩

/-- **The search is right.** With enough fuel it empties its stack, and answers whether the node is
below the root. -/
theorem search_correct [LawfulEqCmp cmp] (hwidth : ∀ x, (parents x).length ≤ width)
    (hnodes : ∀ x, ∀ p ∈ parents x, p ∈ nodes) {fuel : Nat} {stack : List (Frame α)}
    (h : Ok root parents entity w stack answer) (hpath : ∀ f ∈ stack, f.entity ∈ nodes)
    (hfuel : potential width nodes.length stack ≤ fuel) :
    let done := search root parents fuel w stack answer
    Ok root parents entity done.1 [] done.2 := by
  induction fuel generalizing w stack answer with
  | zero =>
    cases stack with
    | nil => exact h
    | cons top rest =>
      simp only [potential] at hfuel
      omega
  | succ fuel ih =>
    cases stack with
    | nil => exact h
    | cons top rest =>
      obtain ⟨hless, hnext⟩ := potential_step hwidth hnodes h hpath
      exact ih h.step hnext (by omega)

/-! ## The frames of a search

A verdict that is not remembered is found again on every path that leads to its node, so that a
search can open a frame for every path without repetition. There are not more. -/

/-- The frames that a search opens above the given ones. -/
def opened (root : α) (parents : α → List α) :
    Nat → Walk α cmp → List (Frame α) → Bool → Nat
  | 0, _, _, _ => 0
  | _ + 1, _, [], _ => 0
  | fuel + 1, w, top :: rest, answer =>
    let next := step root parents w top rest answer
    (if (top :: rest).length < next.2.1.length then 1 else 0) +
      opened root parents fuel next.1 next.2.1 next.2.2

/-- The paths without repetition that start at one node of a graph with so many. -/
def paths : Nat → Nat
  | 0 => 0
  | k + 1 => 1 + k * paths k

/-- The frames that a stack can still open in a graph with so many nodes. -/
def budget (nodes : Nat) : List (Frame α) → Nat
  | [] => 0
  | f :: rest =>
    (f.parents.filter (· ∉ (f :: rest).map (·.entity))).length * paths (nodes - (rest.length + 1)) +
      budget nodes rest

omit [TransCmp cmp] in
/-- The parents that are not on a path are among the nodes that it leaves. -/
theorem length_filter_add_le {path ps : List α} (hpath : path.Nodup) (hps : ps.Nodup)
    (hsub : path ⊆ nodes) (hin : ps ⊆ nodes) :
    (ps.filter (· ∉ path)).length + path.length ≤ nodes.length := by
  have hnodup : (ps.filter (· ∉ path) ++ path).Nodup := by
    refine nodup_append.mpr ⟨hps.filter _, hpath, ?_⟩
    rintro x hx _ hmem rfl
    simpa [hmem] using (mem_filter.mp hx).2
  have hall : ps.filter (· ∉ path) ++ path ⊆ nodes :=
    append_subset.mpr ⟨fun x hx => hin (mem_filter.mp hx).1, hsub⟩
  simpa using (subperm_of_subset hnodup hall).length_le

/-- One turn opens what it takes from the budget. -/
theorem budget_step (hunique : ∀ x, (parents x).Nodup)
    (hnodes : ∀ x, ∀ p ∈ parents x, p ∈ nodes) (h : Ok root parents entity w (top :: rest) answer)
    (hpath : ∀ f ∈ top :: rest, f.entity ∈ nodes) :
    let next := step root parents w top rest answer
    (if (top :: rest).length < next.2.1.length then 1 else 0) + budget nodes.length next.2.1 ≤
      budget nodes.length (top :: rest) := by
  unfold Backtrack.step
  split
  · cases rest with
    | nil => simp [budget]
    | cons parent rest => simp [budget]
  · split
    · cases rest with
      | nil => simp [budget]
      | cons parent rest => simp [budget]
    · rename_i c others hparents
      have hsame : ∀ g : Frame α, g.entity = top.entity → g.parents = others →
          (if (top :: rest).length < (g :: rest).length then 1 else 0) +
            budget nodes.length (g :: rest) ≤ budget nodes.length (top :: rest) := by
        intro g hentity hothers
        have hfewer : (others.filter (· ∉ (top :: rest).map (·.entity))).length ≤
            (top.parents.filter (· ∉ (top :: rest).map (·.entity))).length := by
          rw [hparents]
          exact ((sublist_cons_self c others).filter _).length_le
        have hmul := Nat.mul_le_mul_right (paths (nodes.length - (rest.length + 1))) hfewer
        simp only [length_cons, Nat.lt_irrefl, if_false, Nat.zero_add, budget, hothers, map_cons,
          hentity] at hmul ⊢
        omega
      dsimp only
      split
      · exact hsame _ rfl rfl
      split
      · exact hsame _ rfl rfl
      split
      · exact hsame _ rfl rfl
      rename_i hvisiting
      have hfresh : c ∉ (top :: rest).map (·.entity) := fun hmem =>
        hvisiting ((h.visiting c).mpr hmem)
      have hc : c ∈ nodes :=
        hnodes _ c (h.frames.1.edges c (mem_append_right _ (hparents ▸ mem_cons_self)))
      -- the new node and the parents behind it are different nodes of the graph
      have hroom := length_filter_add_le
        (nodup_cons.mpr ⟨hfresh, h.frames.nodup⟩) (hunique c)
        (cons_subset.mpr ⟨hc, fun x hx => by
          obtain ⟨f, hf, rfl⟩ := mem_map.mp hx
          exact hpath f hf⟩) (hnodes c)
      obtain ⟨k, hk⟩ : ∃ k, nodes.length - (rest.length + 1) = k + 1 :=
        ⟨nodes.length - (rest.length + 1) - 1, by simp at hroom; omega⟩
      have hk' : nodes.length - (rest.length + 1 + 1) = k := by omega
      have hnew : ((parents c).filter (· ∉ c :: (top :: rest).map (·.entity))).length * paths k ≤
          k * paths k := by
        refine Nat.mul_le_mul_right _ ?_
        simp only [length_cons, length_map] at hroom
        omega
      have hpay : (top.parents.filter (· ∉ (top :: rest).map (·.entity))).length =
          (others.filter (· ∉ (top :: rest).map (·.entity))).length + 1 := by
        rw [hparents, filter_cons_of_pos (by simpa using hfresh), length_cons]
      simp only [openFrame, budget, length_cons, map_cons, hk, hk', paths] at hnew hpay ⊢
      rw [hpay, if_pos (by omega), Nat.succ_mul]
      omega

/-- **A search opens no more frames than its budget.** -/
theorem opened_le [LawfulEqCmp cmp] (hunique : ∀ x, (parents x).Nodup)
    (hnodes : ∀ x, ∀ p ∈ parents x, p ∈ nodes) (fuel : Nat) {stack : List (Frame α)}
    (h : Ok root parents entity w stack answer) (hpath : ∀ f ∈ stack, f.entity ∈ nodes) :
    opened root parents fuel w stack answer ≤ budget nodes.length stack := by
  have hwidth : ∀ x, (parents x).length ≤ nodes.length := fun x =>
    (subperm_of_subset (hunique x) (hnodes x)).length_le
  induction fuel generalizing w stack answer with
  | zero => exact Nat.zero_le _
  | succ fuel ih =>
    cases stack with
    | nil => exact Nat.zero_le _
    | cons top rest =>
      have hturn := budget_step hunique hnodes h hpath
      have hrest := ih h.step (potential_step hwidth hnodes h hpath).2
      rw [opened]
      omega

end Backtrack
