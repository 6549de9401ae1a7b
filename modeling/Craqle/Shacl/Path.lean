import Craqle.Index.Spaces
import Craqle.Lib.Walk

/-! # Property paths of SHACL shapes

A property path is walked from a focus node within two budgets: the number of edges that one
validation may read, and the number of rounds of a repeated path. A walk can be capped, because a
count only needs to know whether there are enough values.

`ResolvedPath.walk` is the walk of the code, with the flag that says whether the path is walked
backwards. `ResolvedPath.Related` is the relation of the path in SPARQL. They agree on paths
without repetition and on `p*`, but not on `p+`: the code marks the focus as visited before it
starts, so it never finds it again, while SPARQL relates every node of a cycle to itself.
`ResolvedPath.Rel` has both readings, with a flag for the closed walks of `p+`.
-/

namespace Craqle

open Std (ExtTreeSet)
open Relation (ReflTransGen TransGen)
open Walk Ordered

-- named, so that all scans carry the same proof
instance instLawfulBEqTermPair : LawfulBEq (TermId × TermId) :=
  inferInstance

abbrev NodeSet := ExtTreeSet TermId compare

/-- The errors of a walk: a budget is exhausted. -/
inductive PathError where
  | pathBudgetExceeded (limit : Nat)
  | pathDepthExceeded (limit : Nat)
  deriving DecidableEq

structure ShaclValidationOptions where
  maxResults : Nat
  maxPathEdges : Nat
  maxPathDepth : Nat

def ShaclValidationOptions.default : ShaclValidationOptions where
  maxResults := 10000
  maxPathEdges := 1000000
  maxPathDepth := 128

structure PathWork where
  edgesRead : Nat
  deriving DecidableEq

/-- A data graph as the cursors of a read view show it: all rows, the rows of a subject, of a subject
and a predicate, and of a predicate and an object, each in an order of its own. -/
structure DataView where
  rows : List (TermId × TermId × TermId)
  scan : TermId → List (TermId × TermId)
  forward : TermId → TermId → List TermId
  inverse : TermId → TermId → List TermId
  mem_rows : ∀ s p o, (s, p, o) ∈ rows ↔ (p, o) ∈ scan s
  mem_forward : ∀ s p o, o ∈ forward s p ↔ (p, o) ∈ scan s
  mem_inverse : ∀ p o s, s ∈ inverse p o ↔ (p, o) ∈ scan s

def DataView.ofTriples (triples : List (TermId × TermId × TermId)) : DataView where
  rows := triples
  scan s := triples.filterMap fun t => if t.1 = s then some t.2 else none
  forward s p := triples.filterMap fun t => if t.1 = s ∧ t.2.1 = p then some t.2.2 else none
  inverse p o := triples.filterMap fun t => if t.2 = (p, o) then some t.1 else none
  mem_rows s p o := by
    simp only [List.mem_filterMap, Option.ite_none_right_eq_some, Option.some.injEq]
    constructor
    · exact fun hmem => ⟨_, hmem, rfl, rfl⟩
    · rintro ⟨⟨s, p, o⟩, hmem, rfl, h⟩
      cases h
      exact hmem
  mem_forward s p o := by
    simp only [List.mem_filterMap, Option.ite_none_right_eq_some, Option.some.injEq]
    constructor
    · rintro ⟨⟨s, p, o⟩, hmem, ⟨rfl, rfl⟩, rfl⟩
      exact ⟨_, hmem, rfl, rfl⟩
    · rintro ⟨⟨s, p, o⟩, hmem, rfl, h⟩
      cases h
      exact ⟨_, hmem, ⟨rfl, rfl⟩, rfl⟩
  mem_inverse p o s := by
    simp only [List.mem_filterMap, Option.ite_none_right_eq_some, Option.some.injEq]
    constructor
    · rintro ⟨⟨s, p, o⟩, hmem, h, rfl⟩
      cases h
      exact ⟨_, hmem, rfl, rfl⟩
    · rintro ⟨⟨s, p, o⟩, hmem, rfl, h⟩
      cases h
      exact ⟨_, hmem, rfl, rfl⟩

@[simp] theorem DataView.mem_scan_ofTriples {triples : List (TermId × TermId × TermId)}
    {s p o : TermId} : (p, o) ∈ (ofTriples triples).scan s ↔ (s, p, o) ∈ triples :=
  ((ofTriples triples).mem_rows s p o).symm

inductive ResolvedPath where
  | predicate (p : TermId)
  | alternative (paths : List ResolvedPath)
  | sequence (paths : List ResolvedPath)
  | inverse (path : ResolvedPath)
  | zeroOrMore (path : ResolvedPath)
  | oneOrMore (path : ResolvedPath)
  | zeroOrOne (path : ResolvedPath)

/-! ## The walk -/

abbrev PathWalker := Walker TermId PathError PathWork compare

section Walk

variable (view : DataView) (options : ShaclValidationOptions)

def chargeEdge (work : PathWork) : Except PathError PathWork :=
  let edgesRead := saturatingAdd work.edgesRead 1
  if options.maxPathEdges < edgesRead then .error (.pathBudgetExceeded options.maxPathEdges)
  else .ok { edgesRead }

def predicateValues (p : TermId) (inverted : Bool) : PathWalker := fun focus cap work =>
  gather (chargeEdge options) cap (if inverted then view.inverse p focus else view.forward focus p)
    ∅ work

def repeatPath (w : PathWalker) (includeFocus : Bool) : PathWalker :=
  closeFrom (.pathDepthExceeded options.maxPathDepth) w includeFocus options.maxPathDepth

/-- The steps of a sequence, from the last to the first when it is walked backwards. -/
def oriented {β : Type} (inverted : Bool) (steps : List β) : List β :=
  if inverted then steps.reverse else steps

-- The walks of the parts of a path are listed before they are run, so that the recursion is on
-- the path.
mutual

def ResolvedPath.walk : ResolvedPath → Bool → PathWalker
  | .predicate p, inverted => guarded (predicateValues view options p inverted)
  | .alternative paths, inverted => guarded fun focus cap work =>
    collect cap ((walkAll paths inverted).map fun w => w focus) ∅ work
  | .sequence paths, inverted => guarded fun focus cap work =>
    Walk.sequence cap (oriented inverted (walkAll paths inverted)) ((∅ : NodeSet).insert focus)
      work
  | .inverse path, inverted => guarded (path.walk !inverted)
  | .zeroOrMore path, inverted => guarded (repeatPath options (path.walk inverted) true)
  | .oneOrMore path, inverted => guarded (repeatPath options (path.walk inverted) false)
  | .zeroOrOne path, inverted => guarded (optional (path.walk inverted))

def ResolvedPath.walkAll : List ResolvedPath → Bool → List PathWalker
  | [], _ => []
  | path :: paths, inverted => path.walk inverted :: ResolvedPath.walkAll paths inverted

end

/-- The values of a path from a focus, at most as many as the cap asks for. -/
def pathValues (path : ResolvedPath) : PathWalker := path.walk view options false

end Walk

/-! ## The relation of a path -/

mutual

/-- The relation of a path. With `loops`, `p+` relates a node of a cycle to itself. -/
def ResolvedPath.Rel (view : DataView) (loops : Bool) : ResolvedPath → TermId → TermId → Prop
  | .predicate p => fun s o => (p, o) ∈ view.scan s
  | .alternative paths => fun a b => ∃ R ∈ ResolvedPath.rels view loops paths, R a b
  | .sequence paths => Linked (ResolvedPath.rels view loops paths)
  | .inverse path => flip (path.Rel view loops)
  | .zeroOrMore path => ReflTransGen (path.Rel view loops)
  | .oneOrMore path => fun a b => TransGen (path.Rel view loops) a b ∧ (loops = true ∨ a ≠ b)
  | .zeroOrOne path => fun a b => a = b ∨ path.Rel view loops a b

def ResolvedPath.rels (view : DataView) (loops : Bool) :
    List ResolvedPath → List (TermId → TermId → Prop)
  | [] => []
  | path :: paths => path.Rel view loops :: ResolvedPath.rels view loops paths

end

/-- The relation of the path in SPARQL. -/
abbrev ResolvedPath.Related (view : DataView) : ResolvedPath → TermId → TermId → Prop :=
  ResolvedPath.Rel view true

/-- What the walk finds: `p+` does not lead from a node back to it. -/
abbrev ResolvedPath.Walked (view : DataView) : ResolvedPath → TermId → TermId → Prop :=
  ResolvedPath.Rel view false

/-! ## What the walk finds -/

/-- A relation as a walk in one direction sees it. -/
def along (inverted : Bool) (R : TermId → TermId → Prop) : TermId → TermId → Prop :=
  if inverted then flip R else R

theorem along_not_flip (inverted : Bool) (R : TermId → TermId → Prop) :
    along (!inverted) R = along inverted (flip R) := by
  cases inverted <;> rfl

theorem reflTransGen_along (inverted : Bool) (R : TermId → TermId → Prop) :
    ReflTransGen (along inverted R) = along inverted (ReflTransGen R) := by
  cases inverted with
  | false => rfl
  | true =>
    funext a b
    exact propext Relation.reflTransGen_swap

/-- A composition, walked backwards, is walked from its last step to its first. -/
theorem linked_along (inverted : Bool) (Rs : List (TermId → TermId → Prop)) :
    Linked ((oriented inverted Rs).map (along inverted)) = along inverted (Linked Rs) := by
  cases inverted with
  | false =>
    have hid : along false = id := rfl
    simp [hid, oriented]
  | true =>
    funext a b
    exact propext linked_reverse

theorem map_oriented {β γ : Type} (f : β → γ) (inverted : Bool) (steps : List β) :
    (oriented inverted steps).map f = oriented inverted (steps.map f) := by
  cases inverted with
  | false => rfl
  | true => exact List.map_reverse

theorem mem_oriented {β : Type} {inverted : Bool} {steps : List β} {step : β} :
    step ∈ oriented inverted steps ↔ step ∈ steps := by
  cases inverted with
  | false => exact Iff.rfl
  | true => exact List.mem_reverse

theorem forall₂_oriented {β γ : Type} {P : β → γ → Prop} {bs : List β} {cs : List γ}
    (h : List.Forall₂ P bs cs) (inverted : Bool) :
    List.Forall₂ P (oriented inverted bs) (oriented inverted cs) := by
  cases inverted with
  | false => exact h
  | true => exact List.forall₂_reverse_iff.mpr h

/-- What `p+` relates, the node itself apart, is what is reached, the node itself apart. -/
theorem transGen_ne {R : TermId → TermId → Prop} {a b : TermId} :
    TransGen R a b ∧ a ≠ b ↔ ReflTransGen R a b ∧ b ≠ a := by
  rw [Relation.reflTransGen_iff_eq_or_transGen]
  constructor
  · rintro ⟨h, hne⟩
    exact ⟨.inr h, hne.symm⟩
  · rintro ⟨rfl | h, hne⟩
    · exact absurd rfl hne
    · exact ⟨h, hne.symm⟩

open ResolvedPath

/-- Induction on a path, with the hypothesis on every path of a list. -/
@[elab_as_elim]
theorem ResolvedPath.induction {P : ResolvedPath → Prop} (predicate : ∀ p, P (.predicate p))
    (alternative : ∀ paths, (∀ path ∈ paths, P path) → P (.alternative paths))
    (sequence : ∀ paths, (∀ path ∈ paths, P path) → P (.sequence paths))
    (inverse : ∀ path, P path → P (.inverse path))
    (zeroOrMore : ∀ path, P path → P (.zeroOrMore path))
    (oneOrMore : ∀ path, P path → P (.oneOrMore path))
    (zeroOrOne : ∀ path, P path → P (.zeroOrOne path)) (path : ResolvedPath) : P path :=
  @ResolvedPath.rec P (fun paths => ∀ path ∈ paths, P path) predicate alternative sequence inverse
    zeroOrMore oneOrMore zeroOrOne (List.forall_mem_nil P)
    (fun _ _ hhead htail => List.forall_mem_cons.mpr ⟨hhead, htail⟩) path

variable {view : DataView} {options : ShaclValidationOptions}

theorem walkAll_eq_map (paths : List ResolvedPath) (inverted : Bool) :
    walkAll view options paths inverted =
      paths.map fun path => path.walk view options inverted := by
  induction paths with
  | nil => rfl
  | cons path paths ih => rw [walkAll, ih, List.map_cons]

theorem rels_eq_map (loops : Bool) (paths : List ResolvedPath) :
    rels view loops paths = paths.map (ResolvedPath.Rel view loops) := by
  induction paths with
  | nil => rfl
  | cons path paths ih => rw [rels, ih, List.map_cons]

theorem exhausts_predicateValues (p : TermId) (inverted : Bool) (focus : TermId) :
    Exhausts (predicateValues view options p inverted focus)
      {v | along inverted ((predicate p).Walked view) focus v} := by
  have hrows : {v | along inverted ((predicate p).Walked view) focus v} =
      {v | v ∈ if inverted then view.inverse p focus else view.forward focus p} := by
    ext v
    cases inverted with
    | false => exact (view.mem_forward focus p v).symm
    | true => exact (view.mem_inverse p focus v).symm
  rw [hrows]
  exact exhausts_gather (chargeEdge options) _

variable {R : TermId → TermId → Prop} {inverted : Bool}

theorem exhausts_zeroOrMore {w : PathWalker}
    (h : ∀ n, Finds (w n) {v | along inverted R n v}) (focus : TermId) :
    Exhausts (repeatPath options w true focus) {v | along inverted (ReflTransGen R) focus v} := by
  have heq : {v | along inverted (ReflTransGen R) focus v} =
      Closure (along inverted R) focus true := by
    ext v
    simp [Closure, reflTransGen_along]
  rw [heq]
  exact exhausts_closeFrom h focus

theorem exhausts_oneOrMore {w : PathWalker}
    (h : ∀ n, Finds (w n) {v | along inverted R n v}) (focus : TermId) :
    Exhausts (repeatPath options w false focus)
      {v | along inverted (fun a b => TransGen R a b ∧ (false = true ∨ a ≠ b)) focus v} := by
  have heq : {v | along inverted (fun a b => TransGen R a b ∧ (false = true ∨ a ≠ b)) focus v} =
      Closure (along inverted R) focus false := by
    ext v
    simp only [Closure, reflTransGen_along, Set.mem_ofPred_eq, Bool.false_eq_true, false_or]
    cases inverted with
    | false => exact transGen_ne
    | true =>
      refine transGen_ne.trans ?_
      rw [ne_comm]
      rfl
  rw [heq]
  exact exhausts_closeFrom h focus

/-- The walks of the parts of a path, with the relations they walk. -/
abbrev Steps (P : Probe TermId PathError PathWork compare → Set TermId → Prop)
    (ws : List PathWalker) (Rs : List (TermId → TermId → Prop)) : Prop :=
  List.Forall₂ (fun w R => ∀ n, P (w n) {v | R n v}) ws Rs

variable {Rs : List (TermId → TermId → Prop)}

theorem Steps.at {P : Probe TermId PathError PathWork compare → Set TermId → Prop}
    {ws : List PathWalker} (h : Steps P ws Rs) (focus : TermId) :
    List.Forall₂ P (ws.map fun w => w focus) (Rs.map fun R => {v | R focus v}) := by
  rw [List.forall₂_map_left_iff, List.forall₂_map_right_iff]
  exact h.imp fun w R hw => hw focus

variable {focus : TermId}

/-- The nodes that some part of an alternative relates to the focus. -/
theorem mem_alternative {v : TermId} :
    along inverted (fun a b => ∃ R ∈ Rs, R a b) focus v ↔
      ∃ S ∈ (Rs.map (along inverted)).map fun R => {v | R focus v}, v ∈ S := by
  simp only [List.mem_map, exists_exists_and_eq_and, Set.mem_ofPred_eq]
  cases inverted <;> rfl

theorem mem_sequence {v : TermId} :
    along inverted (Linked Rs) focus v ↔
      ∃ n ∈ (∅ : NodeSet).insert focus, Linked ((oriented inverted Rs).map (along inverted)) n v := by
  rw [linked_along]
  constructor
  · exact fun h => ⟨focus, mem_insert_empty.mpr rfl, h⟩
  · rintro ⟨n, hn, h⟩
    exact mem_insert_empty.mp hn ▸ h

theorem mem_optional {v : TermId} :
    along inverted (fun a b => a = b ∨ R a b) focus v ↔
      v = focus ∨ v ∈ {v | along inverted R focus v} := by
  cases inverted with
  | false => exact or_congr_left eq_comm
  | true => exact Iff.rfl

-- The induction is on the path, with the paths of a list beside it; the direction is arbitrary,
-- because an inverse path turns it around.
mutual

theorem finds_walk : ∀ (path : ResolvedPath) (inverted : Bool) (focus : TermId),
    Finds (path.walk view options inverted focus)
      {v | along inverted (path.Walked view) focus v}
  | .predicate p, inverted, focus => (exhausts_predicateValues p inverted focus).finds.guarded
  | .alternative paths, inverted, focus => by
      have h := finds_collect ((finds_walkAll paths inverted).at focus)
      exact (h.congr fun v => mem_alternative).guarded
  | .sequence paths, inverted, focus => by
      have hsteps := forall₂_oriented (finds_walkAll paths inverted) inverted
      rw [← map_oriented] at hsteps
      exact ((finds_sequence hsteps).congr fun v => mem_sequence).guarded
  | .inverse path, inverted, focus => by
      have h := finds_walk path (!inverted) focus
      rw [along_not_flip] at h
      exact h.guarded
  | .zeroOrMore path, inverted, focus =>
    (exhausts_zeroOrMore (fun n => finds_walk path inverted n) focus).finds.guarded
  | .oneOrMore path, inverted, focus =>
    (exhausts_oneOrMore (fun n => finds_walk path inverted n) focus).finds.guarded
  | .zeroOrOne path, inverted, focus =>
    ((finds_optional (finds_walk path inverted focus)).congr fun _ => mem_optional).guarded

theorem finds_walkAll : ∀ (paths : List ResolvedPath) (inverted : Bool),
    Steps Finds (walkAll view options paths inverted)
      ((rels view false paths).map (along inverted))
  | [], _ => .nil
  | path :: paths, inverted =>
    .cons (fun n => finds_walk path inverted n) (finds_walkAll paths inverted)

end

-- What the state decides is only whether the budget lasts.
theorem steady_walk (path : ResolvedPath) (inverted : Bool) (focus : TermId) (cap : Option Nat) :
    Stateful.Steady (path.walk view options inverted focus cap) := by
  induction path using induction generalizing inverted focus cap with
  | predicate p => exact steady_guarded (fun cap => steady_gather (chargeEdge options) cap _ ∅) cap
  | alternative paths ih =>
    refine steady_guarded (fun cap => steady_collect (fun probe hprobe => ?_) cap ∅) cap
    rw [walkAll_eq_map, List.map_map] at hprobe
    obtain ⟨path, hpath, rfl⟩ := List.mem_map.mp hprobe
    exact ih path hpath inverted focus
  | sequence paths ih =>
    refine steady_guarded (fun cap => steady_sequence (fun w hw => ?_) cap _) cap
    rw [walkAll_eq_map, mem_oriented] at hw
    obtain ⟨path, hpath, rfl⟩ := List.mem_map.mp hw
    exact ih path hpath inverted
  | inverse path ih => exact steady_guarded (fun cap => ih (!inverted) focus cap) cap
  | zeroOrMore path ih | oneOrMore path ih =>
    exact steady_guarded (fun cap => steady_close (fun n => ih inverted n none) _ cap _ _) cap
  | zeroOrOne path ih =>
    exact steady_guarded (fun cap => steady_optional (fun cap => ih inverted focus cap) cap) cap

/-! ## Closed walks -/

mutual

/-- No node reaches itself along a path that is repeated by `p+`. -/
def ResolvedPath.Loopless (view : DataView) : ResolvedPath → Prop
  | .predicate _ => True
  | .alternative paths => ResolvedPath.LooplessAll view paths
  | .sequence paths => ResolvedPath.LooplessAll view paths
  | .inverse path => path.Loopless view
  | .zeroOrMore path => path.Loopless view
  | .oneOrMore path => path.Loopless view ∧ ∀ n, ¬ TransGen (path.Related view) n n
  | .zeroOrOne path => path.Loopless view

def ResolvedPath.LooplessAll (view : DataView) : List ResolvedPath → Prop
  | [] => True
  | path :: paths => path.Loopless view ∧ ResolvedPath.LooplessAll view paths

end

theorem looplessAll_iff {paths : List ResolvedPath} :
    ResolvedPath.LooplessAll view paths ↔ ∀ path ∈ paths, path.Loopless view := by
  induction paths with
  | nil => simp [ResolvedPath.LooplessAll]
  | cons path paths ih => rw [ResolvedPath.LooplessAll, ih, List.forall_mem_cons]

/-- Without such nodes the code walks the relation of SPARQL. -/
theorem walked_eq_related {path : ResolvedPath} (h : path.Loopless view) :
    path.Walked view = path.Related view := by
  induction path using induction with
  | predicate p => rfl
  | alternative paths ih | sequence paths ih =>
    have hall := looplessAll_iff.mp h
    have heq : rels view false paths = rels view true paths := by
      rw [rels_eq_map, rels_eq_map]
      exact List.map_congr_left fun path hpath => ih path hpath (hall path hpath)
    simp only [ResolvedPath.Rel, heq]
  | inverse path ih | zeroOrMore path ih | zeroOrOne path ih =>
    have heq : path.Walked view = path.Related view := ih h
    simp only [ResolvedPath.Rel, heq]
  | oneOrMore path ih =>
    have heq : path.Walked view = path.Related view := ih h.1
    funext a b
    simp only [ResolvedPath.Rel, heq, Bool.false_eq_true, false_or, true_or, and_true, eq_iff_iff,
      and_iff_left_iff_imp]
    rintro hreach rfl
    exact h.2 a hreach

/-- Within the budgets the values of a path are the nodes that its relation, with each `p+` leaving
out the node it starts from, relates to the focus. They are the nodes that SPARQL relates to it if
no node reaches itself along a path that is repeated by `p+`. -/
theorem path_values_walked {path : ResolvedPath} {focus : TermId} {work work' : PathWork}
    {out : NodeSet} (hrun : pathValues view options path focus none work = .ok (out, work'))
    (v : TermId) :
    (v ∈ out ↔ path.Walked view focus v) ∧
      (path.Loopless view → (v ∈ out ↔ path.Related view focus v)) := by
  have hfinds : Finds (pathValues view options path focus) {v | path.Walked view focus v} :=
    finds_walk path false focus
  have hwalked : v ∈ out ↔ path.Walked view focus v := ⟨hfinds.sound hrun v, hfinds.complete hrun v⟩
  refine ⟨hwalked, fun hloops => ?_⟩
  rw [← walked_eq_related hloops]
  exact hwalked

/-- Along a chain of three nodes nothing leads back. -/
theorem path_values_walked_chain :
    ∃ out work', pathValues (.ofTriples [(1, 10, 2), (2, 10, 3)]) .default
        (.oneOrMore (.predicate 10)) 1 none ⟨0⟩ = .ok (out, work') ∧ out.toList = [2, 3] ∧
      ∀ v, v ∈ out ↔ (ResolvedPath.oneOrMore (.predicate 10)).Walked
        (.ofTriples [(1, 10, 2), (2, 10, 3)]) 1 v := by
  have hrun : (pathValues (.ofTriples [(1, 10, 2), (2, 10, 3)]) .default
      (.oneOrMore (.predicate 10)) 1 none ⟨0⟩).map (fun r => r.1.toList) = .ok [2, 3] := by
    decide +kernel
  obtain ⟨⟨out, work'⟩, hrun, hlist⟩ := Fallible.map_eq_ok.mp hrun
  exact ⟨out, work', hrun, hlist, fun v => (path_values_walked hrun v).1⟩

/-- On a cycle of two nodes `p+` relates the focus to itself, but it is not among the values. -/
theorem one_or_more_misses_focus :
    (pathValues (.ofTriples [(1, 10, 2), (2, 10, 1)]) .default (.oneOrMore (.predicate 10)) 1 none
      ⟨0⟩).map (fun r => r.1.toList) = .ok [2] ∧
    (ResolvedPath.oneOrMore (.predicate 10)).Related (.ofTriples [(1, 10, 2), (2, 10, 1)]) 1 1 := by
  have hthere : (predicate 10).Related (.ofTriples [(1, 10, 2), (2, 10, 1)]) 1 2 := by
    exact DataView.mem_scan_ofTriples.mpr (by decide)
  have hback : (predicate 10).Related (.ofTriples [(1, 10, 2), (2, 10, 1)]) 2 1 := by
    exact DataView.mem_scan_ofTriples.mpr (by decide)
  exact ⟨by decide +kernel, .tail (.single hthere) hback, .inl rfl⟩

/-! ## The values of a path as a set -/

/-- The subjects and the objects of a graph. -/
def DataView.nodes (view : DataView) : List TermId := view.rows.flatMap fun t => [t.1, t.2.2]

section Finite

variable {loops : Bool}

/-- A relation that, a node itself apart, only relates nodes of the graph. -/
def DataView.Spans (view : DataView) (R : TermId → TermId → Prop) : Prop :=
  ∀ ⦃a b⦄, R a b → a = b ∨ a ∈ view.nodes ∧ b ∈ view.nodes

theorem spans_trans {a b c : TermId} (hab : a = b ∨ a ∈ view.nodes ∧ b ∈ view.nodes)
    (hbc : b = c ∨ b ∈ view.nodes ∧ c ∈ view.nodes) : a = c ∨ a ∈ view.nodes ∧ c ∈ view.nodes := by
  rcases hab with rfl | hab
  · exact hbc
  · rcases hbc with rfl | hbc
    · exact .inr hab
    · exact .inr ⟨hab.1, hbc.2⟩

theorem spans_reflTransGen {R : TermId → TermId → Prop} (h : view.Spans R) :
    view.Spans (ReflTransGen R) := by
  intro a b hab
  induction hab with
  | refl => exact .inl rfl
  | tail _ hstep ih => exact spans_trans ih (h hstep)

theorem spans_linked {Rs : List (TermId → TermId → Prop)} (h : ∀ R ∈ Rs, view.Spans R) :
    view.Spans (Linked Rs) := by
  induction Rs with
  | nil =>
    intro a b hab
    exact .inl hab
  | cons R Rs ih =>
    rintro a b ⟨n, han, hnb⟩
    have hrest := ih fun R' hR' => h R' (List.mem_cons_of_mem _ hR')
    exact spans_trans (h R List.mem_cons_self han) (hrest hnb)

theorem spans_rel (path : ResolvedPath) : view.Spans (path.Rel view loops) := by
  induction path using induction with
  | predicate p =>
    intro s o h
    have hrow := (view.mem_rows s p o).mpr h
    exact .inr ⟨List.mem_flatMap.mpr ⟨_, hrow, by simp⟩, List.mem_flatMap.mpr ⟨_, hrow, by simp⟩⟩
  | alternative paths ih =>
    rintro a b ⟨R, hR, hab⟩
    rw [rels_eq_map] at hR
    obtain ⟨path, hpath, rfl⟩ := List.mem_map.mp hR
    exact ih path hpath hab
  | sequence paths ih =>
    rw [ResolvedPath.Rel, rels_eq_map]
    exact spans_linked (List.forall_mem_map.mpr ih)
  | inverse path ih =>
    intro a b hba
    rcases ih hba with rfl | ⟨hb, ha⟩
    · exact .inl rfl
    · exact .inr ⟨ha, hb⟩
  | zeroOrMore path ih => exact spans_reflTransGen ih
  | oneOrMore path ih => exact fun _ _ h => spans_reflTransGen ih h.1.to_reflTransGen
  | zeroOrOne path ih =>
    rintro a b (rfl | hab)
    · exact .inl rfl
    · exact ih hab

theorem finite_walked (path : ResolvedPath) (focus : TermId) :
    {v | path.Walked view focus v}.Finite := by
  refine (List.finite_toSet (focus :: view.nodes)).subset fun v hv => ?_
  rcases spans_rel path hv with rfl | ⟨-, hmem⟩
  · exact List.mem_cons_self
  · exact List.mem_cons_of_mem _ hmem

end Finite

noncomputable def ResolvedPath.valueNodes (view : DataView) (path : ResolvedPath) (focus : TermId) :
    NodeSet :=
  ExtTreeSet.ofList (@finite_walked view path focus).toFinset.toList compare

theorem ResolvedPath.mem_valueNodes {path : ResolvedPath} {focus v : TermId} :
    v ∈ path.valueNodes view focus ↔ path.Walked view focus v := by
  rw [valueNodes, mem_ofList, Finset.mem_toList, Set.Finite.mem_toFinset]
  exact Iff.rfl

/-- A walk without a cap finds all values. -/
theorem pathValues_eq_valueNodes {options : ShaclValidationOptions}
    {path : ResolvedPath} {focus : TermId} {work work' : PathWork} {out : NodeSet}
    (hrun : pathValues view options path focus none work = .ok (out, work')) :
    out = path.valueNodes view focus := by
  have hfinds : Finds (pathValues view options path focus) {v | path.Walked view focus v} :=
    finds_walk path false focus
  refine ExtTreeSet.ext_mem fun v => ?_
  rw [mem_valueNodes]
  exact ⟨hfinds.sound hrun v, hfinds.complete hrun v⟩

/-! ## Counting with a cap -/

section Counts

variable {k : Nat}

/-- The values of a path from a focus, in one direction. -/
abbrev ResolvedPath.Values (view : DataView) (inverted : Bool) (focus : TermId)
    (path : ResolvedPath) : Set TermId :=
  {v | along inverted (path.Walked view) focus v}

/-- The values that the last step of a sequence finds from the nodes before a node. -/
abbrev ValuesBefore (view : DataView) (inverted : Bool) (steps : List ResolvedPath)
    (last : ResolvedPath) (focus n : TermId) : Set TermId :=
  {v | ∃ m, Linked (steps.map fun p => along inverted (p.Walked view)) focus m ∧
    compare m n = .lt ∧ v ∈ last.Values view inverted m}

/-- With the cap `k`, no part of the path finds a node in place of another one. Parts are the branches
of an alternative, the last step of a sequence from each node that the others lead to, in
ascending order, and the path of an optional path, after the focus itself. If the parts before a
part do not reach the cap and lack one of its values (`Spent`), it has no value in common with them or
what they leave of the cap has a place for each of its values (`Fits`), and the same is true of its
own parts with what is left of the cap. -/
inductive ResolvedPath.Unshared (view : DataView) :
    ResolvedPath → Bool → TermId → Nat → Prop where
  | predicate (p : TermId) (inverted : Bool) (focus : TermId) (k : Nat) :
      Unshared view (.predicate p) inverted focus k
  | alternative {paths : List ResolvedPath} {inverted : Bool} {focus : TermId} {k : Nat}
      (parts : ∀ before path after, paths = before ++ path :: after →
        ¬ Spent k (Among (Values view inverted focus) before) (path.Values view inverted focus) →
        Unshared view path inverted focus
          (k - (Among (Values view inverted focus) before).ncard))
      (fits : ∀ before path after, paths = before ++ path :: after →
        ¬ Spent k (Among (Values view inverted focus) before) (path.Values view inverted focus) →
        Fits k (Among (Values view inverted focus) before) (path.Values view inverted focus)) :
      Unshared view (.alternative paths) inverted focus k
  | emptySequence (inverted : Bool) (focus : TermId) (k : Nat) :
      Unshared view (.sequence []) inverted focus k
  | sequence {paths steps : List ResolvedPath} {last : ResolvedPath} {inverted : Bool}
      {focus : TermId} {k : Nat} (split : oriented inverted paths = steps ++ [last])
      (parts : ∀ n, Linked (steps.map fun p => along inverted (p.Walked view)) focus n →
        ¬ Spent k (ValuesBefore view inverted steps last focus n) (last.Values view inverted n) →
        Unshared view last inverted n (k - (ValuesBefore view inverted steps last focus n).ncard))
      (fits : ∀ n, Linked (steps.map fun p => along inverted (p.Walked view)) focus n →
        ¬ Spent k (ValuesBefore view inverted steps last focus n) (last.Values view inverted n) →
        Fits k (ValuesBefore view inverted steps last focus n) (last.Values view inverted n)) :
      Unshared view (.sequence paths) inverted focus k
  | inverse {path : ResolvedPath} {inverted : Bool} {focus : TermId} {k : Nat}
      (part : Unshared view path (!inverted) focus k) :
      Unshared view (.inverse path) inverted focus k
  | zeroOrMore (path : ResolvedPath) (inverted : Bool) (focus : TermId) (k : Nat) :
      Unshared view (.zeroOrMore path) inverted focus k
  | oneOrMore (path : ResolvedPath) (inverted : Bool) (focus : TermId) (k : Nat) :
      Unshared view (.oneOrMore path) inverted focus k
  | zeroOrOne {path : ResolvedPath} {inverted : Bool} {focus : TermId} {k : Nat}
      (part : ¬ Spent k {focus} (path.Values view inverted focus) →
        Unshared view path inverted focus (k - 1))
      (fits : ¬ Spent k {focus} (path.Values view inverted focus) →
        Fits k {focus} (path.Values view inverted focus)) :
      Unshared view (.zeroOrOne path) inverted focus k

variable (options) in
theorem steps_walk (paths : List ResolvedPath) (inverted : Bool) :
    Steps Finds (paths.map fun path => path.walk view options inverted)
      (paths.map fun path => along inverted (path.Walked view)) := by
  have h := @finds_walkAll view options paths inverted
  rwa [walkAll_eq_map, rels_eq_map, List.map_map] at h

theorem counts_alternative {paths : List ResolvedPath}
    (hparts : ∀ before path after, paths = before ++ path :: after →
      Harmless k (Among (Values view inverted focus) before)
        (path.walk view options inverted focus) (path.Values view inverted focus)) :
    Counts k ((alternative paths).walk view options inverted focus)
      ((alternative paths).Values view inverted focus) := by
  have hprobes : (walkAll view options paths inverted).map (fun w => w focus) =
      paths.map fun path => path.walk view options inverted focus := by
    rw [walkAll_eq_map, List.map_map]
    rfl
  have hvalues : ∀ v, v ∈ (alternative paths).Values view inverted focus ↔
      v ∈ Among (Values view inverted focus) paths := by
    intro v
    refine mem_alternative.trans ?_
    rw [rels_eq_map]
    simp [Among]
  rw [walk]
  refine Counts.guarded ?_
  simp only [hprobes]
  exact (counts_collect (fun path => finds_walk path inverted focus) hparts).congr hvalues

theorem counts_sequence {paths steps : List ResolvedPath} {last : ResolvedPath}
    (hsplit : oriented inverted paths = steps ++ [last])
    (hparts : ∀ n, Linked (steps.map fun p => along inverted (p.Walked view)) focus n →
      Harmless k (ValuesBefore view inverted steps last focus n)
        (last.walk view options inverted n) (last.Values view inverted n)) :
    Counts k ((sequence paths).walk view options inverted focus)
      ((sequence paths).Values view inverted focus) := by
  have hwalks : oriented inverted (walkAll view options paths inverted) =
      steps.map (fun path => path.walk view options inverted) ++
        [last.walk view options inverted] := by
    rw [walkAll_eq_map, ← map_oriented, hsplit, List.map_append, List.map_singleton]
  have hrels : (oriented inverted (rels view false paths)).map (along inverted) =
      steps.map (fun path => along inverted (path.Walked view)) ++
        [along inverted (last.Walked view)] := by
    rw [rels_eq_map, ← map_oriented, hsplit, List.map_map, List.map_append, List.map_singleton]
    rfl
  -- the sequence starts from the focus alone
  have hstart : ∀ {n}, (∃ f ∈ (∅ : NodeSet).insert focus,
      Linked (steps.map fun p => along inverted (p.Walked view)) f n) ↔
      Linked (steps.map fun p => along inverted (p.Walked view)) focus n := by
    intro n
    simp only [mem_insert_empty, exists_eq_left]
  have hharmless : ∀ n, (∃ f ∈ (∅ : NodeSet).insert focus,
      Linked (steps.map fun p => along inverted (p.Walked view)) f n) →
      Harmless k {v | ∃ m, (∃ f ∈ (∅ : NodeSet).insert focus,
        Linked (steps.map fun p => along inverted (p.Walked view)) f m) ∧
          compare m n = .lt ∧ along inverted (last.Walked view) m v}
        (last.walk view options inverted n) (last.Values view inverted n) := by
    simp only [hstart]
    exact hparts
  have hcounts := counts_sequence_concat (steps_walk options steps inverted)
    (fun n => finds_walk last inverted n) hharmless
  rw [walk]
  refine Counts.guarded ?_
  simp only [hwalks]
  refine hcounts.congr fun v => ?_
  rw [← hrels]
  exact mem_sequence

theorem counts_emptySequence (inverted : Bool) (focus : TermId) :
    Counts k ((sequence []).walk view options inverted focus)
      ((sequence []).Values view inverted focus) := by
  have hnil : oriented inverted (walkAll view options [] inverted) = [] := by
    cases inverted <;> rfl
  rw [walk]
  refine Counts.guarded ?_
  simp only [hnil]
  refine exhausts_sequence_nil.counts.congr fun v => ?_
  rw [Set.mem_ofPred_eq, Set.mem_ofPred_eq, mem_insert_empty]
  cases inverted with
  | false => exact eq_comm
  | true => exact Iff.rfl

/-- A capped walk keeps count when no part of its path finds a node in place of another one. -/
theorem counts_walk {path : ResolvedPath} (h : path.Unshared view inverted focus k) :
    Counts k (path.walk view options inverted focus) (path.Values view inverted focus) := by
  induction h with
  | predicate p inverted focus k => exact (exhausts_predicateValues p inverted focus).counts.guarded
  | alternative _ fits ih =>
    refine counts_alternative fun before path after hsplit => or_iff_not_imp_left.mpr fun hnot => ?_
    exact ⟨ih before path after hsplit hnot, fits before path after hsplit hnot⟩
  | emptySequence inverted focus k => exact counts_emptySequence inverted focus
  | sequence split _ fits ih =>
    refine counts_sequence split fun n hn => or_iff_not_imp_left.mpr fun hnot => ?_
    exact ⟨ih n hn hnot, fits n hn hnot⟩
  | @inverse path inverted focus k _ ih =>
    rw [Values, along_not_flip] at ih
    exact ih.guarded
  | zeroOrMore path inverted focus k =>
    exact (exhausts_zeroOrMore (fun n => finds_walk path inverted n) focus).counts.guarded
  | oneOrMore path inverted focus k =>
    exact (exhausts_oneOrMore (fun n => finds_walk path inverted n) focus).counts.guarded
  | @zeroOrOne path inverted focus k _ fits ih =>
    have hpart : Harmless k {focus} (path.walk view options inverted focus)
        (path.Values view inverted focus) := by
      refine or_iff_not_imp_left.mpr fun hnot => ?_
      rw [Set.ncard_singleton]
      exact ⟨ih hnot, fits hnot⟩
    exact ((counts_optional (finds_walk path inverted focus) hpart).congr fun v =>
      mem_optional).guarded

end Counts

/-! ### Verdicts on counts -/

/-- The addition of 64-bit numbers that fails when it overflows. -/
def checkedAdd (a b : Nat) : Option Nat := if a + b < 2 ^ 64 then some (a + b) else none

/-- As many values as `sh:minCount` needs to see. -/
def minCountCap (minimum : Nat) : Option Nat := some minimum

/-- As many values as `sh:maxCount` needs to see. -/
def maxCountCap (maximum : Nat) : Option Nat := checkedAdd maximum 1

def minCountConforms (minimum : Nat) (values : NodeSet) : Bool := decide (minimum ≤ values.size)

def maxCountConforms (maximum : Nat) (values : NodeSet) : Bool := decide (values.size ≤ maximum)

section Verdicts

variable {k : Nat} {path : ResolvedPath} {focus : TermId} {capped full : NodeSet}
  {work₁ work₁' work₂ work₂' : PathWork}

section

variable (hcapped : pathValues view options path focus (some k) work₁ = .ok (capped, work₁'))
include hcapped

theorem capped_subset : ∀ v ∈ capped, v ∈ path.valueNodes view focus := by
  have hfinds : Finds (pathValues view options path focus) {v | path.Walked view focus v} :=
    finds_walk path false focus
  exact fun v hv => mem_valueNodes.mpr (hfinds.sound hcapped v hv)

variable (hunshared : path.Unshared view false focus k)
include hunshared

theorem capped_size : min k (path.valueNodes view focus).size ≤ capped.size ∧
      capped.size ≤ (path.valueNodes view focus).size := by
  have hcounts : Counts k (pathValues view options path focus) {v | path.Walked view focus v} :=
    counts_walk hunshared
  have hle := length_le_size (nodup_toList capped)
    fun v hv => capped_subset hcapped v (ExtTreeSet.mem_toList.mp hv)
  rw [ExtTreeSet.length_toList] at hle
  refine ⟨?_, hle⟩
  rcases hcounts hcapped with hcap | hall
  · exact (min_le_left _ _).trans hcap
  · have hmin := length_le_size (nodup_toList (path.valueNodes view focus)) fun v hv =>
      hall v (mem_valueNodes.mp (ExtTreeSet.mem_toList.mp hv))
    rw [ExtTreeSet.length_toList] at hmin
    exact (min_le_right _ _).trans hmin

theorem minCountConforms_capped {minimum : Nat} (hcap : minCountCap minimum = some k) :
    minCountConforms minimum capped = minCountConforms minimum (path.valueNodes view focus) := by
  obtain ⟨hmin, hle⟩ := capped_size hcapped hunshared
  have hk : minimum = k := Option.some.inj hcap
  have hiff : minimum ≤ capped.size ↔ minimum ≤ (path.valueNodes view focus).size := by omega
  simp [minCountConforms, hiff]

theorem maxCountConforms_capped {maximum : Nat} (hcap : maxCountCap maximum = some k) :
    maxCountConforms maximum capped = maxCountConforms maximum (path.valueNodes view focus) := by
  obtain ⟨hmin, hle⟩ := capped_size hcapped hunshared
  have hk : maximum + 1 = k := by
    simp only [maxCountCap, checkedAdd, Option.ite_none_right_eq_some, Option.some.injEq] at hcap
    exact hcap.2
  have hiff : capped.size ≤ maximum ↔ (path.valueNodes view focus).size ≤ maximum := by omega
  simp [maxCountConforms, hiff]

end

/-- A capped walk returns values of the path, and as many as the cap asks for if there are so many,
when no part of the path finds a node in place of another one. The verdicts on `sh:minCount` and
`sh:maxCount` are then those on all values. -/
theorem capped_values_count (hunshared : path.Unshared view false focus k)
    (hcapped : pathValues view options path focus (some k) work₁ = .ok (capped, work₁'))
    (hfull : pathValues view options path focus none work₂ = .ok (full, work₂')) :
    (∀ v ∈ capped, v ∈ full) ∧ min k full.size ≤ capped.size ∧
      (∀ minimum, minCountCap minimum = some k →
        minCountConforms minimum capped = minCountConforms minimum full) ∧
      ∀ maximum, maxCountCap maximum = some k →
        maxCountConforms maximum capped = maxCountConforms maximum full := by
  obtain rfl := pathValues_eq_valueNodes hfull
  exact ⟨capped_subset hcapped, (capped_size hcapped hunshared).1,
    fun minimum => minCountConforms_capped hcapped hunshared,
    fun maximum => maxCountConforms_capped hcapped hunshared⟩

end Verdicts

theorem values_ofTriples (triples : List (TermId × TermId × TermId)) (p focus : TermId) :
    (ResolvedPath.predicate p).Values (.ofTriples triples) false focus =
      {v | (focus, p, v) ∈ triples} :=
  Set.ext fun _ => DataView.mem_scan_ofTriples

/-- Three branches, where the second has a value in common with the first and room for it: three of
four values are found. -/
theorem capped_values_count_room :
    let view := DataView.ofTriples [(1, 10, 3), (1, 11, 3), (1, 11, 4), (1, 12, 5), (1, 12, 6)]
    let path := alternative [.predicate 10, .predicate 11, .predicate 12]
    ∃ capped full work₁ work₂, pathValues view .default path 1 (some 3) ⟨0⟩ = .ok (capped, work₁) ∧
      pathValues view .default path 1 none ⟨0⟩ = .ok (full, work₂) ∧
      full.toList = [3, 4, 5, 6] ∧ (∀ v ∈ capped, v ∈ full) ∧ min 3 full.size ≤ capped.size ∧
      minCountConforms 3 capped = minCountConforms 3 full ∧
      maxCountConforms 2 capped = maxCountConforms 2 full := by
  intro view path
  have hcapped : (pathValues view .default path 1 (some 3) ⟨0⟩).map (fun r => r.1.toList) =
      .ok [3, 4, 5] := by
    decide +kernel
  have hfull : (pathValues view .default path 1 none ⟨0⟩).map (fun r => r.1.toList) =
      .ok [3, 4, 5, 6] := by
    decide +kernel
  obtain ⟨⟨capped, work₁⟩, hcapped, -⟩ := Fallible.map_eq_ok.mp hcapped
  obtain ⟨⟨full, work₂⟩, hfull, hlist⟩ := Fallible.map_eq_ok.mp hfull
  have h10 : (ResolvedPath.predicate 10).Values view false 1 = {3} := by
    ext v
    simp [view, values_ofTriples]
  have h11 : (ResolvedPath.predicate 11).Values view false 1 = {3, 4} := by
    ext v
    simp [view, values_ofTriples]
  have h12 : (ResolvedPath.predicate 12).Values view false 1 = {5, 6} := by
    ext v
    simp [view, values_ofTriples]
  have hsplits : ∀ {before : List ResolvedPath} {branch after},
      [.predicate 10, .predicate 11, .predicate 12] = before ++ branch :: after →
        before = [] ∧ branch = .predicate 10 ∨ before = [.predicate 10] ∧ branch = .predicate 11 ∨
          before = [.predicate 10, .predicate 11] ∧ branch = .predicate 12 := by
    intro before branch after hsplit
    rcases before with _ | ⟨a, _ | ⟨b, _ | ⟨c, before⟩⟩⟩ <;> simp_all
  have hunshared : path.Unshared view false 1 3 := by
    refine .alternative (fun before branch after hsplit _ => ?_) fun before branch after hsplit _ => ?_
    · obtain ⟨-, rfl⟩ | ⟨-, rfl⟩ | ⟨-, rfl⟩ := hsplits hsplit
      all_goals exact .predicate _ _ _ _
    · obtain ⟨rfl, rfl⟩ | ⟨rfl, rfl⟩ | ⟨rfl, rfl⟩ := hsplits hsplit
      · exact .inl (by simp [Among])
      · refine .inr ?_
        have hbefore : Among (ResolvedPath.Values view false 1) [.predicate 10] = {3} := by
          simpa [Among] using h10
        rw [hbefore, h11, Set.encard_singleton, Set.encard_pair (by decide)]
        decide
      · refine .inl (Set.disjoint_left.mpr fun v hv => ?_)
        obtain ⟨branch, hbranch, hv⟩ := hv
        rw [h12]
        obtain rfl | rfl := List.mem_pair.mp hbranch
        · rw [h10] at hv
          rcases hv with rfl
          decide
        · rw [h11] at hv
          rcases hv with rfl | rfl <;> decide
  obtain ⟨hsub, hsize, hmin, hmax⟩ := capped_values_count hunshared hcapped hfull
  exact ⟨capped, full, work₁, work₂, hcapped, hfull, hlist, hsub, hsize, hmin 3 rfl,
    hmax 2 (by decide)⟩

/-- Two branches have the value `3` in common. The second one is asked for one value and returns
it again, so that one of the two values is never found, and a minimum of two is not met. -/
theorem capped_alternative_misses_value :
    let view := DataView.ofTriples [(1, 10, 3), (1, 11, 3), (1, 11, 4)]
    let path := alternative [.predicate 10, .predicate 11]
    (pathValues view .default path 1 (minCountCap 2) ⟨0⟩).map
        (fun r => (r.1.toList, minCountConforms 2 r.1)) = .ok ([3], false) ∧
      (pathValues view .default path 1 none ⟨0⟩).map
        (fun r => (r.1.toList, minCountConforms 2 r.1)) = .ok ([3, 4], true) := by
  decide +kernel

end Craqle
