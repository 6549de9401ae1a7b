import Craqle.Lib.Acyclic
import Craqle.Shacl.Eval

/-! # What the evaluation of a shape computes

The evaluator threads caches, counters and the list of results through nested loops with early
exits. None of this decides what it computes: the verdict on a pair of a shape and a focus, and the
results that it reports for it, are functions of the data and the schema. They are given here
without a state, `constraintViolations` for one constraint and `shapeVerdict` for a shape, the
latter in terms of the verdicts on the nested shapes. A function `C` that satisfies this equation
for all shapes is what the remembered verdicts agree with (`Verdicts`).
-/

namespace Craqle

open Stateful List

section Denote

variable (ctx : EvalContext)

/-- The value nodes of a shape as every walk that succeeds finds them, and all of them if none
does. -/
noncomputable def EvalContext.values (id : ShapeId) (focus : TermId) (cap : Option Nat) : NodeSet :=
  match (ctx.schema.shape id).path with
  | none => (∅ : NodeSet).insert focus
  | some path =>
    outcome (pathValues ctx.data.view ctx.options path focus cap)
      (path.valueNodes ctx.data.view focus)

variable (C : ShapeId → TermId → Bool)

noncomputable def qualifiedCount (id : ShapeId) (focus : TermId) (shape : ShapeId)
    (isDisjoint : Bool) (siblings : List ShapeId) : Nat :=
  (ctx.values id focus none).toList.countP fun v =>
    C shape v && !(isDisjoint && siblings.any fun sibling => C sibling v)

noncomputable def hasValueVerdict (id : ShapeId) (focus expected : TermId) : Bool :=
  match (ctx.schema.shape id).path with
  | none => focus == expected
  | some (.predicate p) => tripleExists ctx focus p expected
  | some (.inverse (.predicate p)) => tripleExists ctx expected p focus
  | some _ => decide (expected ∈ ctx.values id focus none)

noncomputable def constraintViolations (id : ShapeId) (focus : TermId) :
    ResolvedConstraint → List Violation
  | .minCount minimum =>
    if minCountConforms minimum (ctx.values id focus (minCountCap minimum)) then [] else [.plain]
  | .maxCount maximum =>
    if maxCountConforms maximum (ctx.values id focus (maxCountCap maximum)) then [] else [.plain]
  | .hasValue expected => if hasValueVerdict ctx id focus expected then [] else [.plain]
  | .closed ignored => closedViolations ctx id focus ignored
  | .qualifiedValueShape shape minCount maxCount isDisjoint siblings =>
    let count := qualifiedCount ctx C id focus shape isDisjoint siblings
    (if minCount.any (count < ·) then [⟨none, none, some qualifiedMin⟩] else []) ++
      if maxCount.any (· < count) then [⟨none, none, some qualifiedMax⟩] else []
  | .node shape => failing (C shape) (ctx.values id focus none)
  | .not shape => failing (fun v => !C shape v) (ctx.values id focus none)
  | .and shapes =>
    failing (fun v => shapes.countP (C · v) == shapes.length) (ctx.values id focus none)
  | .or shapes => failing (fun v => decide (0 < shapes.countP (C · v))) (ctx.values id focus none)
  | .xone shapes => failing (fun v => shapes.countP (C · v) == 1) (ctx.values id focus none)
  | constraint => valueViolations ctx focus (ctx.values id focus none) constraint

/-- The nodes that the property shapes of a shape apply to. -/
noncomputable def propertyNodes (id : ShapeId) (focus : TermId) : NodeSet :=
  match (ctx.schema.shape id).kind with
  | .node => (∅ : NodeSet).insert focus
  | .property => ctx.values id focus none

noncomputable def propertyPairs (id : ShapeId) (focus : TermId) : List (TermId × ShapeId) :=
  (propertyNodes ctx id focus).toList.flatMap fun v =>
    (ctx.schema.shape id).propertyShapes.map fun property => (v, property)

noncomputable def constraintsVerdict (id : ShapeId) (focus : TermId) : Bool :=
  (ctx.schema.shape id).constraints.all fun c => (constraintViolations ctx C id focus c).isEmpty

/-- Whether a focus conforms to a shape, given the verdicts on the nested shapes. -/
noncomputable def shapeVerdict (id : ShapeId) (focus : TermId) : Bool :=
  (ctx.schema.shape id).deactivated ||
    constraintsVerdict ctx C id focus &&
      (propertyPairs ctx id focus).all fun pair => C pair.2 pair.1

def Verdicts : Prop := ∀ id focus, C id focus = shapeVerdict ctx C id focus

/-- A constraint only asks for the verdicts on the shapes nested in it. -/
theorem constraintViolations_congr {C C' : ShapeId → TermId → Bool} {c : ResolvedConstraint}
    (h : ∀ s ∈ c.nested, C s = C' s) (id : ShapeId) (focus : TermId) :
    constraintViolations ctx C id focus c = constraintViolations ctx C' id focus c := by
  have hcount : ∀ shapes : List ShapeId, (∀ s ∈ shapes, C s = C' s) →
      ∀ v, shapes.countP (C · v) = shapes.countP (C' · v) := fun shapes hs v =>
    countP_congr fun s hmem => by rw [hs s hmem]
  cases c with
  | node shape | not shape =>
    rw [constraintViolations, constraintViolations, h shape mem_cons_self]
  | and shapes | or shapes | xone shapes => simp only [constraintViolations, hcount shapes h]
  | qualifiedValueShape shape minCount maxCount isDisjoint siblings =>
    have hqualified : qualifiedCount ctx C id focus shape isDisjoint siblings =
        qualifiedCount ctx C' id focus shape isDisjoint siblings := by
      refine countP_congr fun v _ => ?_
      rw [h shape mem_cons_self]
      cases isDisjoint with
      | false => rfl
      | true =>
        have hany : (siblings.any fun s => C s v) = siblings.any fun s => C' s v := by
          rw [Bool.eq_iff_iff, any_eq_true, any_eq_true]
          refine exists_congr fun s => and_congr_right fun hs => ?_
          rw [h s (mem_cons_of_mem _ hs)]
        rw [hany]
    simp [constraintViolations, hqualified]
  | _ => rfl

variable {ctx} in
theorem mem_propertyPairs {id : ShapeId} {focus : TermId} {pair : TermId × ShapeId}
    (h : pair ∈ propertyPairs ctx id focus) : pair.2 ∈ (ctx.schema.shape id).propertyShapes := by
  obtain ⟨v, -, hpair⟩ := mem_flatMap.mp h
  obtain ⟨p, hp, rfl⟩ := mem_map.mp hpair
  exact hp

theorem local_shapeVerdict : Acyclicity.Local ctx.schema.Nested (shapeVerdict ctx) := by
  intro C C' id h
  have hconstraints : ∀ focus, constraintsVerdict ctx C id focus =
      constraintsVerdict ctx C' id focus := by
    intro focus
    rw [constraintsVerdict, constraintsVerdict, Bool.eq_iff_iff, all_eq_true, all_eq_true]
    refine forall₂_congr fun c hc => ?_
    have hnested : ∀ s ∈ c.nested, C s = C' s := fun s hs =>
      h s (mem_append_right _ (mem_flatMap.mpr ⟨c, hc, hs⟩))
    rw [constraintViolations_congr ctx hnested]
  funext focus
  have hproperties : ((propertyPairs ctx id focus).all fun pair => C pair.2 pair.1) =
      (propertyPairs ctx id focus).all fun pair => C' pair.2 pair.1 := by
    rw [Bool.eq_iff_iff, all_eq_true, all_eq_true]
    refine forall₂_congr fun pair hpair => ?_
    rw [h pair.2 (mem_append_left _ (mem_propertyPairs hpair))]
  rw [shapeVerdict, shapeVerdict, hconstraints, hproperties]

noncomputable def constraintResults (id : ShapeId) (focus : TermId) (constraint : ResolvedConstraint) :
    List PendingResult :=
  (constraintViolations ctx C id focus constraint).map
    ((ctx.schema.shape id).result constraint focus)

/-- What a reported evaluation returns and reports, as deep as the property shapes of property
shapes are nested. -/
noncomputable def reported : Nat → ShapeId → TermId → Bool × List PendingResult
  | 0, _, _ => (true, [])
  | depth + 1, id, focus =>
    if (ctx.schema.shape id).deactivated then (true, [])
    else
      let own := (ctx.schema.shape id).constraints.flatMap (constraintResults ctx C id focus)
      if (ctx.schema.shape id).kind = .property then
        (constraintsVerdict ctx C id focus &&
            (propertyPairs ctx id focus).all fun pair => (reported depth pair.2 pair.1).1,
          own ++ (propertyPairs ctx id focus).flatMap fun pair => (reported depth pair.2 pair.1).2)
      else (constraintsVerdict ctx C id focus, own)

end Denote

/-! ## The invariant of the evaluator -/

section Evaluator

variable {ctx : EvalContext} {C : ShapeId → TermId → Bool}

/-- The caches agree with the data and the verdicts, and nothing has asked to stop. -/
structure Validator.Agrees (ctx : EvalContext) (C : ShapeId → TermId → Bool) (st : Validator) : Prop where
  values : ∀ id focus vs, st.pathCache (id, focus) = some vs → vs = ctx.values id focus none
  conforms : ∀ id focus, st.conformanceCache (id, focus) = some .conforms → C id focus = true
  violates : ∀ id focus, st.conformanceCache (id, focus) = some .violates → C id focus = false
  running : st.halted = false

theorem agrees_start : Validator.Agrees ctx C .start := by
  refine ⟨?_, ?_, ?_, rfl⟩ <;> simp [Validator.start]

abbrev Computes {α : Type} (ctx : EvalContext) (C : ShapeId → TermId → Bool) (m : EvalM α) (a : α)
    (os : List PendingResult) : Prop :=
  Yields Validator.results (Validator.Agrees ctx C) m a os

/-- Results are only collected when they are to be reported. -/
def emitting (emit : Bool) (os : List PendingResult) : List PendingResult := if emit then os else []

theorem computes_stop (emit : Bool) : Computes ctx C (stop emit) (!emit) [] := by
  refine Yields.getBind fun st hst => ?_
  rw [hst.running, Bool.or_false]
  exact .pure _

variable {emit : Bool}

theorem computes_violate (hgo : emit = true → ctx.stopAfterFirst = false)
    (id : ShapeId) (constraint : ResolvedConstraint) (focus : TermId) (violation : Violation) :
    Computes ctx C (violate ctx id constraint focus violation emit) ()
      (emitting emit [(ctx.schema.shape id).result constraint focus violation]) := by
  cases emit with
  | false => exact .pure ()
  | true =>
    refine Yields.getBind fun st hst => ?_
    split
    · exact .throw _ _ _
    · refine .modify (fun st hst => ⟨hst.values, hst.conforms, hst.violates, ?_⟩) fun st => rfl
      exact hgo rfl

theorem emitting_nil (emit : Bool) : emitting emit [] = [] := by
  cases emit <;> rfl

theorem emitting_append (emit : Bool) (os os' : List PendingResult) :
    emitting emit (os ++ os') = emitting emit os ++ emitting emit os' := by
  cases emit <;> rfl

theorem emitting_flatMap {β : Type} (emit : Bool) (xs : List β) (f : β → List PendingResult) :
    xs.flatMap (fun x => emitting emit (f x)) = emitting emit (xs.flatMap f) := by
  cases emit with
  | true => rfl
  | false => exact flatMap_eq_nil_iff.mpr fun x _ => rfl

/-- A loop with early exits: it is only left early when nothing is reported. -/
theorem computes_everyM {β : Type} {check : β → EvalM Bool} {holds : β → Bool}
    {found : β → List PendingResult} {xs : List β}
    (hcheck : ∀ x, Computes ctx C (check x) (holds x) (emitting emit (found x))) :
    Computes ctx C (everyM (stop emit) check xs) (xs.all holds)
      (emitting emit (xs.flatMap found)) := by
  rw [← emitting_flatMap]
  refine .everyM (fun x _ => hcheck x) (computes_stop emit) fun hquiet x _ => ?_
  rw [Bool.not_eq_true'] at hquiet
  rw [hquiet]
  rfl

theorem computes_violateIf (hgo : emit = true → ctx.stopAfterFirst = false) (id : ShapeId)
    (constraint : ResolvedConstraint) (focus : TermId) (violation : Violation) (violated : Bool) :
    Computes ctx C (violateIf ctx id constraint focus violation emit violated) ()
      (emitting emit ((if violated then [violation] else []).map
        ((ctx.schema.shape id).result constraint focus))) := by
  cases violated with
  | true => exact computes_violate hgo id constraint focus violation
  | false =>
    show Computes ctx C (pure ()) () (emitting emit [])
    rw [emitting_nil]
    exact .pure ()

theorem computes_reportAll (hgo : emit = true → ctx.stopAfterFirst = false)
    (id : ShapeId) (focus : TermId) (constraint : ResolvedConstraint) (violations : List Violation) :
    Computes ctx C (reportAll ctx id focus constraint emit violations) violations.isEmpty
      (emitting emit (violations.map ((ctx.schema.shape id).result constraint focus))) := by
  have hall : violations.isEmpty = violations.all fun _ => false := by
    cases violations <;> rfl
  have hmap : violations.map ((ctx.schema.shape id).result constraint focus) =
      violations.flatMap fun v => [(ctx.schema.shape id).result constraint focus v] :=
    map_eq_flatMap
  rw [hall, hmap]
  exact computes_everyM fun violation =>
    (computes_violate hgo id constraint focus violation).bindQuiet (.pure false)

/-! ## Values -/

theorem computes_walkPath {path : ResolvedPath} (focus : TermId) (cap : Option Nat) :
    Computes ctx C (walkPath ctx path focus cap)
      (outcome (pathValues ctx.data.view ctx.options path focus cap)
        (path.valueNodes ctx.data.view focus)) [] := by
  intro st values st' hst hrun
  simp only [walkPath] at hrun
  cases hwalk : pathValues ctx.data.view ctx.options path focus cap st.pathWork with
  | error e =>
    rw [hwalk] at hrun
    cases hrun
  | ok r =>
    rw [hwalk] at hrun
    cases hrun
    have hvalue := (steady_walk path false focus cap).eq_outcome hwalk
      (path.valueNodes ctx.data.view focus)
    exact ⟨⟨hst.values, hst.conforms, hst.violates, hst.running⟩, hvalue, (append_nil _).symm⟩

theorem computes_shapeValues (id : ShapeId) (focus : TermId) (cap : Option Nat) :
    Computes ctx C (shapeValues ctx id focus cap) (ctx.values id focus cap) [] := by
  unfold shapeValues
  cases hpath : (ctx.schema.shape id).path with
  | none =>
    simp only [EvalContext.values, hpath]
    exact .pure _
  | some path =>
    have hvalues : ∀ cap, ctx.values id focus cap =
        outcome (pathValues ctx.data.view ctx.options path focus cap)
          (path.valueNodes ctx.data.view focus) := by
      intro cap
      simp [EvalContext.values, hpath]
    refine Yields.getBind fun st hst => ?_
    cases cap with
    | some cap =>
      rw [hvalues]
      exact computes_walkPath focus (some cap)
    | none =>
      cases hcached : st.pathCache (id, focus) with
      | some vs =>
        rw [hst.values id focus vs hcached]
        exact .pure _
      | none =>
        rw [hvalues]
        refine (computes_walkPath focus none).quietBind ?_
        refine Yields.quietBind (.modify (fun st hst => ?_) fun st => ?_) (.pure _)
        · refine ⟨fun id' focus' vs hget => ?_, hst.conforms, hst.violates, hst.running⟩
          simp only [Function.update_apply] at hget
          split at hget
          · next heq =>
            cases heq
            cases hget
            exact (hvalues none).symm
          · exact hst.values id' focus' vs hget
        · exact (append_nil _).symm

theorem computes_hasValue (id : ShapeId) (focus expected : TermId) :
    Computes ctx C (hasValue ctx id focus expected) (hasValueVerdict ctx id focus expected) [] := by
  have hread := @computes_shapeValues ctx C id focus none
  unfold hasValue hasValueVerdict
  generalize (ctx.schema.shape id).path = path
  cases path with
  | none => exact .pure _
  | some path =>
    cases path with
    | predicate p => exact .pure _
    | inverse inner =>
      cases inner with
      | predicate p => exact .pure _
      | _ => exact hread.quietBind (.pure _)
    | _ => exact hread.quietBind (.pure _)

/-! ## Constraints -/

theorem map_failing {β : Type} (holds : TermId → Bool) (values : NodeSet) (f : Violation → β) :
    (failing holds values).map f =
      values.toList.flatMap fun v => if holds v then [] else [f (.ofValue v)] := by
  rw [failing, map_map]
  induction values.toList with
  | nil => rfl
  | cons v vs ih =>
    rw [flatMap_cons, ← ih]
    cases hv : holds v <;> simp [hv]

theorem isEmpty_failing (holds : TermId → Bool) (values : NodeSet) :
    (failing holds values).isEmpty = values.toList.all holds := by
  rw [failing, Bool.eq_iff_iff, List.isEmpty_iff, List.map_eq_nil_iff, List.filter_eq_nil_iff,
    List.all_eq_true]
  simp

section Constraint

variable {conforms : ShapeId → TermId → EvalM Bool} {emit : Bool} {id : ShapeId} {focus : TermId}

theorem computes_checkValues (hgo : emit = true → ctx.stopAfterFirst = false)
    (constraint : ResolvedConstraint) {check : TermId → EvalM Bool} {holds : TermId → Bool}
    (hcheck : ∀ v, Computes ctx C (check v) (holds v) []) :
    Computes ctx C (checkValues ctx id focus constraint emit check)
      (failing holds (ctx.values id focus none)).isEmpty
      (emitting emit ((failing holds (ctx.values id focus none)).map
        ((ctx.schema.shape id).result constraint focus))) := by
  rw [isEmpty_failing, map_failing]
  refine (computes_shapeValues id focus none).quietBind (computes_everyM fun v => ?_)
  refine (hcheck v).quietBind ?_
  cases hv : holds v with
  | true =>
    simp only [if_true, emitting_nil]
    exact .pure true
  | false =>
    simp only [Bool.false_eq_true, if_false]
    exact (computes_violate hgo id constraint focus (.ofValue v)).bindQuiet (.pure false)

theorem computes_qualifies (hnested : ∀ s v, Computes ctx C (conforms s v) (C s v) [])
    (shape : ShapeId) (isDisjoint : Bool) (siblings : List ShapeId) (v : TermId) :
    Computes ctx C (qualifies conforms shape isDisjoint siblings v)
      (C shape v && !(isDisjoint && siblings.any fun sibling => C sibling v)) [] := by
  refine (hnested shape v).quietBind ?_
  cases C shape v with
  | false => exact .pure false
  | true =>
    cases isDisjoint with
    | false => exact .pure true
    | true => exact (Yields.someM fun sibling _ => hnested sibling v).quietBind (.pure _)

variable (hgo : emit = true → ctx.stopAfterFirst = false)
  (hnested : ∀ s v, Computes ctx C (conforms s v) (C s v) [])
include hgo hnested

theorem computes_qualified (shape : ShapeId)
    (minCount maxCount : Option Nat) (isDisjoint : Bool) (siblings : List ShapeId) :
    Computes ctx C
      (evaluateConstraint ctx conforms id focus emit
        (.qualifiedValueShape shape minCount maxCount isDisjoint siblings))
      (constraintViolations ctx C id focus
        (.qualifiedValueShape shape minCount maxCount isDisjoint siblings)).isEmpty
      (emitting emit (constraintResults ctx C id focus
        (.qualifiedValueShape shape minCount maxCount isDisjoint siblings))) := by
  let tooFew := minCount.any (qualifiedCount ctx C id focus shape isDisjoint siblings < ·)
  let tooMany := maxCount.any (· < qualifiedCount ctx C id focus shape isDisjoint siblings)
  have hverdict : (constraintViolations ctx C id focus
      (.qualifiedValueShape shape minCount maxCount isDisjoint siblings)).isEmpty =
        (!tooFew && !tooMany) := by
    simp only [constraintViolations, tooFew, tooMany]
    cases minCount.any _ <;> cases maxCount.any _ <;> rfl
  rw [hverdict, constraintResults, constraintViolations, map_append, emitting_append]
  refine (computes_shapeValues id focus none).quietBind ?_
  refine (Yields.countM fun v _ =>
    computes_qualifies hnested shape isDisjoint siblings v).quietBind ?_
  refine (computes_violateIf hgo id _ focus _ tooFew).bind ?_
  exact (computes_violateIf hgo id _ focus _ tooMany).bindQuiet (.pure _)

theorem computes_evaluateConstraint (constraint : ResolvedConstraint) :
    Computes ctx C (evaluateConstraint ctx conforms id focus emit constraint)
      (constraintViolations ctx C id focus constraint).isEmpty
      (emitting emit (constraintResults ctx C id focus constraint)) := by
  have hcount : ∀ (shapes : List ShapeId) (v : TermId),
      Computes ctx C (countM (fun shape => conforms shape v) shapes) (shapes.countP (C · v)) [] :=
    fun shapes v => .countM fun shape _ => hnested shape v
  cases constraint with
  | minCount minimum | maxCount maximum =>
    exact (computes_shapeValues id focus _).quietBind (computes_reportAll hgo id focus _ _)
  | hasValue expected =>
    exact (computes_hasValue id focus expected).quietBind (computes_reportAll hgo id focus _ _)
  | closed ignored => exact computes_reportAll hgo id focus _ _
  | node shape => exact computes_checkValues hgo _ (hnested shape)
  | not shape =>
    exact computes_checkValues hgo _ fun v => (hnested shape v).quietBind (.pure _)
  | and shapes | or shapes | xone shapes =>
    exact computes_checkValues hgo _ fun v => (hcount shapes v).quietBind (.pure _)
  | qualifiedValueShape shape minCount maxCount isDisjoint siblings =>
    exact computes_qualified hgo hnested shape minCount maxCount isDisjoint siblings
  | _ => exact (computes_shapeValues id focus none).quietBind (computes_reportAll hgo id focus _ _)

end Constraint

/-! ## Shapes -/

theorem computes_setConformance {cached : CachedConformance} {id : ShapeId} {focus : TermId}
    (hconforms : cached = .conforms → C id focus = true)
    (hviolates : cached = .violates → C id focus = false) :
    Computes ctx C (setConformance id focus cached) () [] := by
  refine .modify (fun st hst => ⟨hst.values, fun id' focus' hget => ?_, fun id' focus' hget => ?_,
    hst.running⟩) fun st => (append_nil _).symm
  all_goals
    simp only [Function.update_apply] at hget
    split at hget
  · next heq =>
    cases heq
    exact hconforms (Option.some.inj hget)
  · exact hst.conforms id' focus' hget
  · next heq =>
    cases heq
    exact hviolates (Option.some.inj hget)
  · exact hst.violates id' focus' hget

section Body

variable {evaluate : ShapeId → TermId → Bool → EvalM Bool} {emit : Bool}
  {below : ShapeId → TermId → Bool × List PendingResult} {id : ShapeId} {focus : TermId}

theorem computes_constraints (hgo : emit = true → ctx.stopAfterFirst = false)
    (hnested : ∀ s v, Computes ctx C (evaluate s v false) (C s v) []) :
    Computes ctx C
      (everyM (stop emit) (evaluateConstraint ctx (fun s v => evaluate s v false) id focus emit)
        (ctx.schema.shape id).constraints)
      (constraintsVerdict ctx C id focus)
      (emitting emit
        ((ctx.schema.shape id).constraints.flatMap (constraintResults ctx C id focus))) :=
  computes_everyM (computes_evaluateConstraint hgo hnested)

theorem computes_propertyFocusNodes (id : ShapeId) (focus : TermId) :
    Computes ctx C (propertyFocusNodes ctx id focus) (propertyNodes ctx id focus) [] := by
  have hread := @computes_shapeValues ctx C id focus none
  unfold propertyFocusNodes propertyNodes
  cases (ctx.schema.shape id).kind with
  | node => exact .pure _
  | property => exact hread

/-- The loop over the property shapes of a shape. -/
theorem computes_evaluateProperties
    (hbelow : ∀ s v, Computes ctx C (evaluate s v emit) (below s v).1
      (emitting emit (below s v).2)) :
    Computes ctx C (evaluateProperties ctx evaluate id focus emit)
      ((propertyPairs ctx id focus).all fun pair => (below pair.2 pair.1).1)
      (emitting emit ((propertyPairs ctx id focus).flatMap fun pair => (below pair.2 pair.1).2)) :=
  (computes_propertyFocusNodes id focus).quietBind
    (computes_everyM fun pair => hbelow pair.2 pair.1)

theorem propertyPairs_eq_nil (h : (ctx.schema.shape id).propertyShapes = []) :
    propertyPairs ctx id focus = [] := by
  rw [propertyPairs, h]
  simp

/-- The body of an evaluation that is not reported. Without property shapes, or after a violation,
the loop over them is left out, and would decide nothing. -/
theorem computes_evaluateBody_quiet
    (hnested : ∀ s v, Computes ctx C (evaluate s v false) (C s v) []) :
    Computes ctx C (evaluateBody ctx evaluate id focus false)
      (constraintsVerdict ctx C id focus &&
        (propertyPairs ctx id focus).all fun pair => C pair.2 pair.1) [] := by
  have hprops : Computes ctx C (evaluateProperties ctx evaluate id focus false)
      ((propertyPairs ctx id focus).all fun pair => C pair.2 pair.1) [] :=
    @computes_evaluateProperties ctx C evaluate false (fun s v => (C s v, [])) id focus hnested
  refine (computes_constraints Bool.noConfusion hnested).quietBind ?_
  refine Yields.getBind fun st hst => ?_
  dsimp only
  split
  · exact hprops.quietBind (.pure _)
  rename_i hskip
  have hvalue : (constraintsVerdict ctx C id focus &&
      (propertyPairs ctx id focus).all fun pair => C pair.2 pair.1) =
        constraintsVerdict ctx C id focus := by
    cases hverdict : constraintsVerdict ctx C id focus with
    | false => rfl
    | true =>
      have hempty : (ctx.schema.shape id).propertyShapes = [] := by
        simpa [hverdict, hst.running] using hskip
      rw [propertyPairs_eq_nil hempty]
      rfl
  rw [hvalue]
  exact .pure _

/-- The body of an evaluation that is reported. -/
theorem computes_evaluateBody_emit (hgo : ctx.stopAfterFirst = false)
    (hnested : ∀ s v, Computes ctx C (evaluate s v false) (C s v) [])
    (hbelow : ∀ s v, Computes ctx C (evaluate s v true) (below s v).1 (below s v).2) :
    Computes ctx C (evaluateBody ctx evaluate id focus true)
      (if (ctx.schema.shape id).kind = .property then constraintsVerdict ctx C id focus &&
          (propertyPairs ctx id focus).all fun pair => (below pair.2 pair.1).1
      else constraintsVerdict ctx C id focus)
      ((ctx.schema.shape id).constraints.flatMap (constraintResults ctx C id focus) ++
        if (ctx.schema.shape id).kind = .property then
          (propertyPairs ctx id focus).flatMap fun pair => (below pair.2 pair.1).2
        else []) := by
  have hprops := @computes_evaluateProperties ctx C evaluate true below id focus hbelow
  refine (computes_constraints (fun _ => hgo) hnested).bind ?_
  refine Yields.getBind fun st hst => ?_
  by_cases hkind : (ctx.schema.shape id).kind = .property
  · simp only [hkind, if_true]
    split
    · exact hprops.bindQuiet (.pure _)
    · next hskip =>
      have hempty : (ctx.schema.shape id).propertyShapes = [] := by
        simpa [hst.running] using hskip
      rw [propertyPairs_eq_nil hempty, all_nil, Bool.and_true]
      exact .pure _
  · have hskip : ((ctx.schema.shape id).kind == .property) = false := by simpa using hkind
    simp only [hkind, hskip, if_false, Bool.not_true, Bool.or_self, Bool.false_and,
      Bool.false_eq_true]
    exact .pure _

/-- An evaluation that is not reported returns the verdict. -/
theorem computes_evaluateShape_quiet (hC : Verdicts ctx C) (depth : Nat) (id : ShapeId)
    (focus : TermId) : Computes ctx C (evaluateShape ctx depth id focus false) (C id focus) [] := by
  induction depth generalizing id focus with
  | zero => exact .throw _ _ _
  | succ depth ih =>
    rw [evaluateShape]
    by_cases hoff : (ctx.schema.shape id).deactivated = true
    · rw [if_pos hoff, hC id focus, shapeVerdict, hoff, Bool.true_or]
      exact .pure true
    rw [if_neg hoff]
    refine Yields.getBind fun st hst => ?_
    cases hcached : st.conformanceCache (id, focus) with
    | some cached =>
      cases cached with
      | inProgress => exact .throw _ _ _
      | conforms =>
        rw [hst.conforms id focus hcached]
        exact .pure true
      | violates =>
        rw [hst.violates id focus hcached]
        exact .pure false
    | none =>
      have hverdict : C id focus = (constraintsVerdict ctx C id focus &&
          (propertyPairs ctx id focus).all fun pair => C pair.2 pair.1) := by
        rw [hC id focus, shapeVerdict, Bool.eq_false_of_not_eq_true hoff, Bool.false_or]
      have hbody : Computes ctx C
          (evaluateBody ctx (evaluateShape ctx depth) id focus false) (C id focus) [] := by
        rw [hverdict]
        exact computes_evaluateBody_quiet ih
      refine Yields.quietBind (computes_setConformance (fun h => by cases h) (fun h => by cases h)) ?_
      refine hbody.quietBind ?_
      refine Yields.quietBind (computes_setConformance ?_ ?_) (.pure _)
      · cases C id focus <;> simp
      · cases C id focus <;> simp

theorem computes_evaluateShape_emit (hC : Verdicts ctx C) (hgo : ctx.stopAfterFirst = false)
    (depth : Nat) (id : ShapeId) (focus : TermId) :
    Computes ctx C (evaluateShape ctx depth id focus true) (reported ctx C depth id focus).1
      (reported ctx C depth id focus).2 := by
  induction depth generalizing id focus with
  | zero => exact .throw _ _ _
  | succ depth ih =>
    rw [evaluateShape, reported]
    by_cases hoff : (ctx.schema.shape id).deactivated = true
    · rw [if_pos hoff, if_pos hoff]
      exact .pure true
    · have hbody := @computes_evaluateBody_emit ctx C (evaluateShape ctx depth)
        (reported ctx C depth) id focus hgo (computes_evaluateShape_quiet hC depth) ih
      by_cases hkind : (ctx.schema.shape id).kind = .property
      · simpa only [hoff, hkind, Bool.false_eq_true, if_true, if_false] using hbody
      · simpa only [hoff, hkind, Bool.false_eq_true, if_true, if_false, append_nil] using hbody

end Body

end Evaluator

end Craqle
