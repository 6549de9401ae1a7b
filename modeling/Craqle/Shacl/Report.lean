import Craqle.Shacl.Conform
import Craqle.Shacl.Incremental

/-! # Reports and checks

A report reaches the property shapes of a node shape through the targets that they inherit, and those
of a property shape by evaluating them on its value nodes. A check of a single focus descends into
all of them. Both agree on which focus nodes conform: `report_agrees_with_checks`.
-/

namespace Craqle

open Std (ExtTreeSet)
open List ResolvedSchema

/-- A property holds of each active shape and each target that the shape declares. -/
def EvalContext.OnDeclared (ctx : EvalContext) (P : ShapeId → TermId → Prop) : Prop :=
  ∀ id, (ctx.schema.shape id).deactivated = false →
    ∀ focus ∈ declaredTargets ctx.data ctx.schema id, P id focus

/-- What `sh:property` lists has a path: the shapes graph of another schema is rejected. -/
def ResolvedSchema.ListsProperties (schema : ResolvedSchema) : Prop :=
  ∀ id, ∀ p ∈ (schema.shape id).propertyShapes, (schema.shape p).kind = .property

theorem lt_length_of_target {data : ShaclData} {schema : ResolvedSchema} {id : ShapeId}
    {focus : TermId} (h : focus ∈ resolveTargets data schema id) : id < schema.shapes.length := by
  obtain ⟨a, hreach, hdeclared⟩ := mem_resolveTargets.mp h
  rcases hreach.cases_tail with rfl | ⟨b, -, hstep⟩
  · exact lt_length_of_declared hdeclared
  · exact (nested_of_property hstep.2.2).lt_length

section Verdicts

variable {ctx : EvalContext} {C : ShapeId → TermId → Bool} {id : ShapeId} {focus : TermId}

theorem own_eq_nil :
    (ctx.schema.shape id).constraints.flatMap (constraintResults ctx C id focus) = [] ↔
      constraintsVerdict ctx C id focus = true := by
  simp [constraintsVerdict, constraintResults]

/-- The verdict on a shape that is not switched off. -/
theorem Verdicts.eq_true_iff (hC : Verdicts ctx C)
    (hactive : (ctx.schema.shape id).deactivated = false) :
    C id focus = true ↔ constraintsVerdict ctx C id focus = true ∧
      ∀ pair ∈ propertyPairs ctx id focus, C pair.2 pair.1 = true := by
  rw [hC id focus, shapeVerdict, hactive, Bool.false_or, Bool.and_eq_true, all_eq_true]

theorem Verdicts.of_deactivated (hC : Verdicts ctx C)
    (hoff : (ctx.schema.shape id).deactivated = true) : C id focus = true := by
  rw [hC id focus, shapeVerdict, hoff, Bool.true_or]

theorem mem_propertyPairs_node (hkind : (ctx.schema.shape id).kind = .node)
    {pair : TermId × ShapeId} :
    pair ∈ propertyPairs ctx id focus ↔
      pair.1 = focus ∧ pair.2 ∈ (ctx.schema.shape id).propertyShapes := by
  obtain ⟨v, p⟩ := pair
  simp only [propertyPairs, propertyNodes, hkind, mem_flatMap, mem_map, ExtTreeSet.mem_toList,
    Ordered.mem_insert_empty, exists_eq_left, Prod.mk.injEq]
  constructor
  · rintro ⟨q, hq, rfl, rfl⟩
    exact ⟨rfl, hq⟩
  · rintro ⟨rfl, hp⟩
    exact ⟨p, hp, rfl, rfl⟩

/-- Nothing is reported on a focus that conforms. -/
theorem Verdicts.reported_eq_nil (hC : Verdicts ctx C) (depth : Nat) (h : C id focus = true) :
    (reported ctx C depth id focus).2 = [] := by
  induction depth generalizing id focus with
  | zero => rfl
  | succ depth ih =>
    by_cases hoff : (ctx.schema.shape id).deactivated = true
    · exact reported_deactivated hoff _ focus
    obtain ⟨hown, hpairs⟩ := (hC.eq_true_iff (Bool.eq_false_of_not_eq_true hoff)).mp h
    rw [reported_succ (Bool.eq_false_of_not_eq_true hoff), own_eq_nil.mpr hown, nil_append]
    split
    · exact flatMap_eq_nil_iff.mpr fun pair hpair => ih (hpairs pair hpair)
    · rfl

section Ranked

variable {rank : ShapeId → Nat} (hrank : ∀ a b, ctx.schema.Nested a b → rank b < rank a)
  (hlists : ctx.schema.ListsProperties)

include hrank hlists

/-- If a property shape reports nothing on a node then the node conforms to it. -/
theorem Verdicts.of_reported (hC : Verdicts ctx C) {depth : Nat} (hdepth : rank id < depth)
    (hkind : (ctx.schema.shape id).kind = .property)
    (h : (reported ctx C depth id focus).2 = []) : C id focus = true := by
  induction depth generalizing id focus with
  | zero => omega
  | succ depth ih =>
    by_cases hoff : (ctx.schema.shape id).deactivated = true
    · exact hC.of_deactivated hoff
    have hactive := Bool.eq_false_of_not_eq_true hoff
    rw [reported_succ hactive, if_pos hkind, append_eq_nil_iff, own_eq_nil] at h
    obtain ⟨hown, hpairs⟩ := h
    refine (hC.eq_true_iff hactive).mpr ⟨hown, fun pair hpair => ?_⟩
    have hlisted := mem_propertyPairs hpair
    have hlower := hrank id pair.2 (nested_of_property hlisted)
    exact ih (by omega) (hlists id _ hlisted) (flatMap_eq_nil_iff.mp hpairs pair hpair)

/-- If no shape reports anything on its targets then all of them conform. A node shape says nothing
about its property shapes, but these have the same targets. -/
theorem Verdicts.of_report (hC : Verdicts ctx C)
    (hbound : ∀ id < ctx.schema.shapes.length, rank id < ctx.schema.shapes.length)
    (h : ∀ id, ∀ f ∈ resolveTargets ctx.data ctx.schema id,
      (reported ctx C ctx.schema.shapes.length id f).2 = [])
    (hfocus : focus ∈ resolveTargets ctx.data ctx.schema id) : C id focus = true := by
  by_cases hoff : (ctx.schema.shape id).deactivated = true
  · exact hC.of_deactivated hoff
  have hactive := Bool.eq_false_of_not_eq_true hoff
  have hid := lt_length_of_target hfocus
  have hreport := h id focus hfocus
  cases hkind : (ctx.schema.shape id).kind with
  | property => exact hC.of_reported hrank hlists (hbound id hid) hkind hreport
  | node =>
    obtain ⟨depth, hdepth⟩ := Nat.exists_eq_add_of_lt hid
    rw [hdepth, reported_succ hactive, append_eq_nil_iff, own_eq_nil] at hreport
    refine (hC.eq_true_iff hactive).mpr ⟨hreport.1, fun pair hpair => ?_⟩
    obtain ⟨rfl, hlisted⟩ := (mem_propertyPairs_node hkind).mp hpair
    obtain ⟨a, hreach, hdeclared⟩ := mem_resolveTargets.mp hfocus
    have hinherited := mem_resolveTargets.mpr
      ⟨a, hreach.tail ⟨hactive, hkind, hlisted⟩, hdeclared⟩
    exact hC.of_reported hrank hlists (hbound _ (nested_of_property hlisted).lt_length)
      (hlists id _ hlisted) (h pair.2 pair.1 hinherited)

end Ranked

/-- The shapes report nothing on their targets exactly when each of them has only targets of its own
that conform to it. -/
theorem Verdicts.report_eq_nil_iff (hC : Verdicts ctx C) (hschema : ctx.schema.NonRecursive)
    (hlists : ctx.schema.ListsProperties) :
    (∀ id, ∀ f ∈ resolveTargets ctx.data ctx.schema id,
        (reported ctx C ctx.schema.shapes.length id f).2 = []) ↔
      ctx.OnDeclared fun id f => C id f = true := by
  constructor
  · intro h id _ f hf
    obtain ⟨rank, hrank, hbound⟩ := hschema.exists_rank
    exact hC.of_report hrank hlists hbound h (mem_resolveTargets.mpr ⟨id, .refl, hf⟩)
  · intro h id f hf
    by_cases hoff : (ctx.schema.shape id).deactivated = true
    · exact reported_deactivated hoff _ f
    obtain ⟨a, hreach, hdeclared⟩ := mem_resolveTargets.mp hf
    have hactive : (ctx.schema.shape a).deactivated = false := by
      rcases hreach.cases_head with rfl | ⟨b, hstep, -⟩
      · exact Bool.eq_false_of_not_eq_true hoff
      · exact hstep.1
    have hconforms := h a hactive f hdeclared
    refine hC.reported_eq_nil _ ?_
    clear hoff hf
    induction hreach with
    | refl => exact hconforms
    | tail _ hstep ih =>
      -- a focus that conforms to a shape conforms to the shapes that inherit it as a target
      obtain ⟨hactive, hkind, hb⟩ := hstep
      exact ((hC.eq_true_iff hactive).mp ih).2 (f, _) ((mem_propertyPairs_node hkind).mpr ⟨rfl, hb⟩)

end Verdicts

/-! ## Runs -/

section Runs

variable (ctx : EvalContext)

/-- An order of visiting the targets of the active shapes. -/
def EvalContext.Visits (visits : List (ShapeId × TermId)) : Prop :=
  ∀ id focus, (id, focus) ∈ visits ↔ (ctx.schema.shape id).deactivated = false ∧
    focus ∈ resolveTargets ctx.data ctx.schema id

def reportVisits : List (ShapeId × TermId) → EvalM Unit :=
  untilHalted fun visit => do
    let _ ← evaluateShape ctx ctx.schema.shapes.length visit.1 visit.2 true
    pure ()

/-- For a schema without recursion, take any checks of the active shapes on the targets that they
declare, each from a state between evaluations. A full report has no results exactly when all of
these checks return true, and neither does a report that visits the targets in any other order and
starts with whatever earlier evaluations left in the caches. -/
theorem report_agrees_with_checks (hschema : ctx.schema.NonRecursive)
    (hlists : ctx.schema.ListsProperties) (hgo : ctx.stopAfterFirst = false)
    (before : ShapeId → TermId → Validator) (conforms : ShapeId → TermId → Bool)
    (hchecks : ctx.OnDeclared fun id focus => (before id focus).Reached ctx ∧
      ∃ st, evaluateShape ctx ctx.schema.shapes.length id focus false (before id focus) =
        .ok (conforms id focus, st)) :
    (∀ results, validateAll ctx = .ok results →
      (results = [] ↔ ctx.OnDeclared fun id focus => conforms id focus = true)) ∧
    ∀ visits st st', ctx.Visits visits → Validator.Reached ctx st →
      reportVisits ctx visits st = .ok ((), st') →
      (st'.results = st.results ↔ ctx.OnDeclared fun id focus => conforms id focus = true) := by
  obtain ⟨C, hC, -⟩ := hschema.exists_verdicts
  have hverdict : ctx.OnDeclared fun id focus => conforms id focus = C id focus := by
    intro id hactive focus hfocus
    obtain ⟨hreached, st, hrun⟩ := hchecks id hactive focus hfocus
    exact (computes_evaluateShape_quiet hC _ id focus (hreached.agrees hC) hrun).2.1
  have hconforms : (ctx.OnDeclared fun id focus => conforms id focus = true) ↔
      ∀ id, ∀ f ∈ resolveTargets ctx.data ctx.schema id,
        (reported ctx C ctx.schema.shapes.length id f).2 = [] := by
    rw [hC.report_eq_nil_iff hschema hlists]
    refine forall₂_congr fun id hactive => forall₂_congr fun f hf => ?_
    show conforms id f = true ↔ C id f = true
    rw [hverdict id hactive f hf]
  rw [hconforms]
  constructor
  · intro results hrun
    rw [validate_eq hC hgo hrun, reportOn]
    simp only [flatMap_eq_nil_iff, mem_range, ExtTreeSet.mem_toList]
    exact ⟨fun h id f hf => h id (lt_length_of_target hf) f hf, fun h id _ => h id⟩
  · intro visits st st' hvisits hreached hrun
    have hcomputes : Computes ctx C (reportVisits ctx visits) ()
        (visits.flatMap fun visit => (reported ctx C ctx.schema.shapes.length visit.1 visit.2).2) :=
      computes_untilHalted fun visit _ =>
        (computes_evaluateShape_emit hC hgo _ visit.1 visit.2).bindQuiet (.pure ())
    rw [(hcomputes (hreached.agrees hC) hrun).2.2, append_right_eq_self, flatMap_eq_nil_iff]
    constructor
    · intro h id f hf
      by_cases hoff : (ctx.schema.shape id).deactivated = true
      · exact reported_deactivated hoff _ f
      · exact h (id, f) ((hvisits id f).mpr ⟨Bool.eq_false_of_not_eq_true hoff, hf⟩)
    · exact fun h visit hvisit => h visit.1 visit.2 ((hvisits visit.1 visit.2).mp hvisit).2

end Runs

/-- The node of the class has no value: the check of the node shape, which looks at the property
shape, returns true, so the report of the property shape on the target that it inherits is empty. -/
theorem report_agrees_with_checks_listed :
    validateAll (reportContext listedData (listedSchema false) .default) = .ok [] := by
  have hlists : (listedSchema false).ListsProperties := by
    intro id p hp
    obtain ⟨-, rfl⟩ := listedSchema_nested (nested_of_property hp)
    rfl
  have hcheck : (evaluateShape (reportContext listedData (listedSchema false) .default) 2 0 1 false
      .start).map Prod.fst = .ok true := by
    decide +kernel
  have hreport := report_agrees_with_checks (reportContext listedData (listedSchema false) .default)
    (listedSchema_nonRecursive false) hlists rfl (fun _ _ => .start) (fun _ _ => true) (by
      intro id _ focus hfocus
      rcases id with _ | _ | id
      · have htargets : (declaredTargets listedData (listedSchema false) 0).toList = [1] := by
          decide +kernel
        have hmem : focus ∈ [1] := htargets ▸ ExtTreeSet.mem_toList.mpr hfocus
        obtain rfl := mem_singleton.mp hmem
        obtain ⟨⟨_, st⟩, hok, rfl⟩ := Fallible.map_eq_ok.mp hcheck
        exact ⟨.start, st, hok⟩
      -- the property shape declares no target
      all_goals
        rw [declaredTargets, Ordered.mem_ofList] at hfocus
        cases hfocus)
  have hreturns : (validateAll (reportContext listedData (listedSchema false)
      .default)).toOption.isSome = true := by
    decide +kernel
  obtain ⟨results, hresults⟩ := Option.isSome_iff_exists.mp hreturns
  rw [Fallible.toOption_eq_some] at hresults
  rw [hresults, (hreport.1 results hresults).mpr fun _ _ _ _ => rfl]

end Craqle
