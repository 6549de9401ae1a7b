import Craqle.Lib.Saturate
import Craqle.Shacl.Depth

/-! # Targets and full reports

A shape is evaluated on the nodes that its target declarations select, and a property shape also on
the targets of the node shapes that list it, unless these are switched off. Inheriting goes on until
no set of targets changes. `mem_resolveTargets` says which nodes a shape is evaluated on, and
`validate_eq` what a validation reports on given targets.
-/

namespace Craqle

open Std (ExtTreeSet)
open Relation (ReflTransGen)
open Stateful Saturate List

/-! ## Targets -/

section Targets

variable (data : ShaclData) (schema : ResolvedSchema)

/-- The nodes that a target declaration selects. -/
def targetNodes : ResolvedTarget → List TermId
  | .node n => [n]
  | .class c | .implicitClass c => data.view.inverse data.rdfType c
  | .subjectsOf p => (data.view.rows.filter fun t => t.2.1 = p).map fun t => t.1
  | .objectsOf p => (data.view.rows.filter fun t => t.2.1 = p).map fun t => t.2.2

def declaredTargets (id : ShapeId) : NodeSet :=
  ExtTreeSet.ofList ((schema.shape id).targets.flatMap (targetNodes data)) compare

/-- Property shapes of a property shape are checked on its value nodes instead. -/
def inheritMoves : List (Move (ShapeId → NodeSet)) :=
  (List.range schema.shapes.length).flatMap fun id =>
    if (schema.shape id).deactivated || (schema.shape id).kind == .property then []
    else (schema.shape id).propertyShapes.map fun property targets =>
      extendAt targets property (targets id)

def allTargets : NodeSet :=
  ExtTreeSet.ofList ((List.range schema.shapes.length).flatMap fun id =>
    (declaredTargets data schema id).toList) compare

def resolveTargets : ShapeId → NodeSet :=
  saturate (inheritMoves schema)
    (schema.shapes.length * (allTargets data schema).size + 1) (declaredTargets data schema)

end Targets

/-- A shape passes its targets on to another one. -/
def ResolvedSchema.Inherits (schema : ResolvedSchema) (a b : ShapeId) : Prop :=
  (schema.shape a).deactivated = false ∧ (schema.shape a).kind = .node ∧
    b ∈ (schema.shape a).propertyShapes

section Inheritance

variable {data : ShaclData} {schema : ResolvedSchema} {focus : TermId}

theorem ResolvedSchema.lt_length_of_shape_ne {id : ShapeId} (h : schema.shape id ≠ .empty) :
    id < schema.shapes.length := by
  by_contra hge
  refine h ?_
  rw [ResolvedSchema.shape, List.getD_eq_getElem?_getD,
    getElem?_eq_none (Nat.le_of_not_lt hge)]
  rfl

theorem ResolvedSchema.nested_of_property {a b : ShapeId}
    (h : b ∈ (schema.shape a).propertyShapes) : schema.Nested a b :=
  List.mem_append_left _ h

theorem ResolvedSchema.lt_length_of_property {a b : ShapeId}
    (h : b ∈ (schema.shape a).propertyShapes) : a < schema.shapes.length := by
  refine lt_length_of_shape_ne fun hempty => ?_
  rw [hempty] at h
  cases h

theorem mem_inheritMoves {m : Move (ShapeId → NodeSet)} :
    m ∈ inheritMoves schema ↔
      ∃ a b, schema.Inherits a b ∧ m = fun targets => extendAt targets b (targets a) := by
  simp only [inheritMoves, mem_flatMap, mem_range]
  constructor
  · rintro ⟨a, -, hm⟩
    split at hm
    · cases hm
    rename_i hpasses
    obtain ⟨b, hb, rfl⟩ := mem_map.mp hm
    rw [Bool.or_eq_true, not_or, Bool.not_eq_true, beq_iff_eq] at hpasses
    refine ⟨a, b, ⟨hpasses.1, ?_, hb⟩, rfl⟩
    cases hkind : (schema.shape a).kind with
    | node => rfl
    | property => exact absurd hkind hpasses.2
  · rintro ⟨a, b, ⟨hactive, hkind, hb⟩, rfl⟩
    refine ⟨a, ResolvedSchema.lt_length_of_property hb, ?_⟩
    rw [hactive, hkind]
    exact mem_map.mpr ⟨b, hb, rfl⟩

theorem lt_length_of_declared {id : ShapeId} (h : focus ∈ declaredTargets data schema id) :
    id < schema.shapes.length := by
  refine ResolvedSchema.lt_length_of_shape_ne fun hempty => ?_
  rw [declaredTargets, hempty, Ordered.mem_ofList] at h
  cases h

theorem mem_allTargets {id : ShapeId} (h : focus ∈ declaredTargets data schema id) :
    focus ∈ allTargets data schema := by
  rw [allTargets, Ordered.mem_ofList, List.mem_flatMap]
  exact ⟨id, List.mem_range.mpr (lt_length_of_declared h), ExtTreeSet.mem_toList.mpr h⟩

structure Resolving (data : ShaclData) (schema : ResolvedSchema) (targets : ShapeId → NodeSet) :
    Prop where
  declared : ∀ id, ∀ focus ∈ declaredTargets data schema id, focus ∈ targets id
  inherited : ∀ id, ∀ focus ∈ targets id,
    ∃ a, ReflTransGen schema.Inherits a id ∧ focus ∈ declaredTargets data schema a

theorem progress_inherit {a b : ShapeId} (h : schema.Inherits a b) :
    Progress (Resolving data schema) (members schema.shapes.length)
      fun targets => extendAt targets b (targets a) where
  keeps targets hI := by
    refine ⟨fun id f hf => mem_extendAt.mpr (.inl (hI.declared id f hf)), fun id f hf => ?_⟩
    rcases mem_extendAt.mp hf with hold | ⟨rfl, hnew⟩
    · exact hI.inherited id f hold
    · obtain ⟨c, hc, hdeclared⟩ := hI.inherited a f hnew
      exact ⟨c, hc.tail h, hdeclared⟩
  still _ _ hflag := extendAt_still hflag
  grows _ _ hflag := members_extendAt (ResolvedSchema.nested_of_property h.2.2).lt_length hflag

theorem mem_resolveTargets {id : ShapeId} :
    focus ∈ resolveTargets data schema id ↔
      ∃ a, ReflTransGen schema.Inherits a id ∧ focus ∈ declaredTargets data schema a := by
  have hmoves : ∀ m ∈ inheritMoves schema,
      Progress (Resolving data schema) (members schema.shapes.length) m := by
    intro m hm
    obtain ⟨a, b, hab, rfl⟩ := mem_inheritMoves.mp hm
    exact progress_inherit hab
  have hbound : ∀ targets, Resolving data schema targets →
      members schema.shapes.length targets ≤
        schema.shapes.length * (allTargets data schema).size := by
    intro targets hI
    refine members_le fun id => ?_
    rw [← ExtTreeSet.length_toList]
    refine Walk.length_le_size (Ordered.nodup_toList _) fun f hf => ?_
    obtain ⟨a, -, hdeclared⟩ := hI.inherited id f (ExtTreeSet.mem_toList.mp hf)
    exact mem_allTargets hdeclared
  have hstart : Resolving data schema (declaredTargets data schema) :=
    ⟨fun _ _ hf => hf, fun id f hf => ⟨id, .refl, hf⟩⟩
  have hfuel : schema.shapes.length * (allTargets data schema).size <
      schema.shapes.length * (allTargets data schema).size + 1 +
        members schema.shapes.length (declaredTargets data schema) := by
    omega
  obtain ⟨hI, hstill⟩ := saturate_stable hmoves hbound hstart hfuel
  refine ⟨hI.inherited id focus, ?_⟩
  rintro ⟨a, hreach, hdeclared⟩
  -- no move changes the result, so it is closed under inheriting
  have hclosed : ∀ {a b}, schema.Inherits a b → focus ∈ resolveTargets data schema a →
      focus ∈ resolveTargets data schema b := by
    intro a b hab hf
    have hmove := hstill _ (mem_inheritMoves.mpr ⟨a, b, hab, rfl⟩)
    exact mem_of_extendAt_still (congrArg Prod.snd hmove) hf
  induction hreach with
  | refl => exact hI.declared a focus hdeclared
  | tail _ hstep ih => exact hclosed hstep ih

end Inheritance

/-! ## Validations -/

section Validate

/-- A loop that ends when an evaluation asks to stop. -/
def untilHalted {β : Type} (body : β → EvalM Unit) : List β → EvalM Unit
  | [] => pure ()
  | x :: xs => do
      body x
      if (← get).halted then pure () else untilHalted body xs

variable (ctx : EvalContext)

def validateView (targets : ShapeId → NodeSet) : EvalM Unit :=
  untilHalted (fun id =>
    if (ctx.schema.shape id).deactivated || (targets id).isEmpty then pure ()
    else untilHalted (fun focus => do
      let _ ← evaluateShape ctx ctx.schema.shapes.length id focus true
      pure ()) (targets id).toList) (List.range ctx.schema.shapes.length)

/-- The results of a validation, in the order in which they are found. -/
def validate (targets : ShapeId → NodeSet) : Except EvalError (List PendingResult) :=
  (validateView ctx targets .start).map fun r => r.2.results

def validateAll : Except EvalError (List PendingResult) :=
  validate ctx (resolveTargets ctx.data ctx.schema)

end Validate

section Report

variable {ctx : EvalContext} {C : ShapeId → TermId → Bool}

theorem computes_untilHalted {β : Type} {body : β → EvalM Unit} {os : β → List PendingResult}
    {xs : List β} (h : ∀ x ∈ xs, Computes ctx C (body x) () (os x)) :
    Computes ctx C (untilHalted body xs) () (xs.flatMap os) := by
  induction xs with
  | nil => exact .pure ()
  | cons x xs ih =>
    rw [List.flatMap_cons]
    refine (h x mem_cons_self).bind (Yields.getBind fun st hst => ?_)
    rw [hst.running]
    exact ih fun y hy => h y (mem_cons_of_mem _ hy)

theorem reported_deactivated {id : ShapeId} (h : (ctx.schema.shape id).deactivated = true)
    (depth : Nat) (focus : TermId) : (reported ctx C depth id focus).2 = [] := by
  cases depth with
  | zero => rfl
  | succ depth => rw [reported, if_pos h]

noncomputable def reportOn (ctx : EvalContext) (C : ShapeId → TermId → Bool)
    (targets : ShapeId → NodeSet) : List PendingResult :=
  (List.range ctx.schema.shapes.length).flatMap fun id =>
    (targets id).toList.flatMap fun focus =>
      (reported ctx C ctx.schema.shapes.length id focus).2

theorem computes_validateView (hC : Verdicts ctx C) (hgo : ctx.stopAfterFirst = false)
    (targets : ShapeId → NodeSet) :
    Computes ctx C (validateView ctx targets) () (reportOn ctx C targets) := by
  refine computes_untilHalted fun id _ => ?_
  split
  · next hskip =>
    have hnone : ((targets id).toList.flatMap fun focus =>
        (reported ctx C ctx.schema.shapes.length id focus).2) = [] := by
      rw [Bool.or_eq_true] at hskip
      rcases hskip with hoff | hempty
      · exact List.flatMap_eq_nil_iff.mpr fun focus _ => reported_deactivated hoff _ focus
      · have hnil : (targets id).toList = [] := by
          rw [← List.isEmpty_iff, ExtTreeSet.isEmpty_toList]
          exact hempty
        rw [hnil]
        rfl
    rw [hnone]
    exact .pure ()
  · exact computes_untilHalted fun focus _ =>
      (computes_evaluateShape_emit hC hgo _ id focus).bindQuiet (.pure ())

/-- A validation that succeeds reports what its shapes do on the targets. -/
theorem validate_eq (hC : Verdicts ctx C) (hgo : ctx.stopAfterFirst = false)
    {targets : ShapeId → NodeSet} {results : List PendingResult}
    (h : validate ctx targets = .ok results) : results = reportOn ctx C targets := by
  obtain ⟨⟨_, st⟩, hrun, rfl⟩ := Fallible.map_eq_ok.mp h
  have hout := (computes_validateView hC hgo targets agrees_start hrun).2.2
  rw [hout]
  rfl

end Report

end Craqle
