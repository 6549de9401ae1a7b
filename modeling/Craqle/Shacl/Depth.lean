import Craqle.Shacl.Recursion

/-! # The nesting of evaluations

An evaluation of a shape on a focus looks at the nested shapes on the value nodes
(`EvalContext.LooksAt`). The pairs in progress are those of the calls above it. If no chain of pairs
from a pair is longer than a bound, no pair on it comes back, so no pair in progress is asked for,
and the nesting of calls is bounded as well (`evaluateShape_keeps`).

Without recursion of shapes a chain has no more pairs than there are shapes. A shapes graph that
passes the check for recursion gives this bound for all chains on which no sibling of a disjoint
qualified value shape leads back to the shape that looks at it (`chain_lt_of_accepted`), so that the
evaluation is safe if chains with such a sibling are no longer either
(`accepted_shapes_evaluate`). The check does not look at siblings: `accepted_siblings_recurse` is a
schema that passes it, and evaluations that fail.
-/

namespace Craqle

open Relation (ReflTransGen TransGen)
open Stateful Acyclicity List ResolvedConstraint ResolvedSchema

/-! ## Evaluations keep what is in progress -/

/-- A budget of the evaluation is exhausted. -/
def EvalError.IsLimit : EvalError → Prop
  | .shacl (.path _) => True
  | .shacl (.resultLimitExceeded _) => True
  | _ => False

section Looks

variable (ctx : EvalContext)

/-- The value nodes of a shape on a focus. -/
def EvalContext.Value (id : ShapeId) (focus v : TermId) : Prop :=
  match (ctx.schema.shape id).path with
  | none => v = focus
  | some path => path.Walked ctx.data.view focus v

/-- An evaluation of the first shape and node looks at the second ones. -/
def EvalContext.LooksAt (p q : ShapeId × TermId) : Prop :=
  (ctx.schema.shape p.1).deactivated = false ∧ ctx.schema.Nested p.1 q.1 ∧ ctx.Value p.1 p.2 q.2

/-- The pairs in progress are those of a set, and the values in the cache are value nodes. -/
structure Validator.InProgress (pairs : Set (ShapeId × TermId)) (st : Validator) : Prop where
  pairs : ∀ key, st.conformanceCache key = some .inProgress ↔ key ∈ pairs
  values : ∀ id focus vs, st.pathCache (id, focus) = some vs → ∀ v ∈ vs, ctx.Value id focus v

end Looks

theorem Validator.inProgress_start {ctx : EvalContext} : Validator.InProgress ctx ∅ .start :=
  ⟨by simp [Validator.start], by simp [Validator.start]⟩

section Keeps

variable {ctx : EvalContext} {pairs : Set (ShapeId × TermId)}

/-- A computation of the validator leaves the pairs in progress, or fails with a limit. -/
abbrev Preserves {α : Type} (ctx : EvalContext) (pairs : Set (ShapeId × TermId)) (m : EvalM α) :
    Prop :=
  Stateful.Keeps (Validator.InProgress ctx pairs) EvalError.IsLimit m

theorem preserves_stop (emit : Bool) : Preserves ctx pairs (stop emit) :=
  .getBind fun _ _ => .pure _

theorem preserves_violate (id : ShapeId) (constraint : ResolvedConstraint) (focus : TermId)
    (violation : Violation) (emit : Bool) :
    Preserves ctx pairs (violate ctx id constraint focus violation emit) := by
  cases emit with
  | false => exact .pure ()
  | true =>
    refine Stateful.Keeps.getBind fun st _ => ?_
    split
    · exact .throw trivial
    · exact .modify fun st hst => ⟨hst.pairs, hst.values⟩

theorem preserves_violateIf (id : ShapeId) (constraint : ResolvedConstraint) (focus : TermId)
    (violation : Violation) (emit violated : Bool) :
    Preserves ctx pairs (violateIf ctx id constraint focus violation emit violated) :=
  .ite (fun _ => preserves_violate id constraint focus violation emit) fun _ => .pure ()

theorem preserves_walkPath (path : ResolvedPath) (focus : TermId) (cap : Option Nat) :
    Preserves ctx pairs (walkPath ctx path focus cap) := by
  intro st hst
  simp only [walkPath]
  cases pathValues ctx.data.view ctx.options path focus cap st.pathWork with
  | ok r =>
    refine ⟨fun a st' h => ?_, fun e h => ?_⟩
    · cases h
      exact ⟨hst.pairs, hst.values⟩
    · cases h
  | error e =>
    refine ⟨fun a st' h => ?_, fun e h => ?_⟩
    · cases h
    · cases h
      trivial

theorem walkPath_values {path : ResolvedPath} {focus : TermId} {cap : Option Nat}
    {st st' : Validator} {vs : NodeSet} (hrun : walkPath ctx path focus cap st = .ok (vs, st')) :
    ∀ v ∈ vs, path.Walked ctx.data.view focus v := by
  simp only [walkPath] at hrun
  cases hwalk : pathValues ctx.data.view ctx.options path focus cap st.pathWork with
  | ok r =>
    rw [hwalk] at hrun
    cases hrun
    exact (finds_walk path false focus).sound hwalk
  | error e =>
    rw [hwalk] at hrun
    cases hrun

theorem preserves_shapeValues (id : ShapeId) (focus : TermId) (cap : Option Nat) :
    Preserves ctx pairs (shapeValues ctx id focus cap) := by
  unfold shapeValues
  cases hpath : (ctx.schema.shape id).path with
  | none => exact .pure _
  | some path =>
    refine Stateful.Keeps.getBind fun st _ => ?_
    cases cap with
    | some cap => exact preserves_walkPath path focus (some cap)
    | none =>
      cases st.pathCache (id, focus) with
      | some values => exact .pure _
      | none =>
        refine (preserves_walkPath path focus none).bindOf (fun st values st' _ => walkPath_values)
          fun values hvalues => ?_
        refine Stateful.Keeps.bind (.modify fun st hst => ⟨hst.pairs, ?_⟩) fun _ => .pure _
        intro id' focus' vs hcached
        simp only [Function.update_apply] at hcached
        split at hcached
        · next heq =>
          cases heq
          cases hcached
          simpa only [EvalContext.Value, hpath] using hvalues
        · exact hst.values id' focus' vs hcached

theorem shapeValues_values {id : ShapeId} {focus : TermId} {cap : Option Nat} {st st' : Validator}
    {vs : NodeSet} (hst : st.InProgress ctx pairs)
    (hrun : shapeValues ctx id focus cap st = .ok (vs, st')) :
    ∀ v ∈ vs, ctx.Value id focus v := by
  have hcache := hst.values id focus
  simp only [EvalContext.Value] at hcache ⊢
  unfold shapeValues at hrun
  cases hpath : (ctx.schema.shape id).path with
  | none =>
    rw [hpath] at hrun
    cases hrun
    exact fun v hv => Ordered.mem_insert_empty.mp hv
  | some path =>
    simp only [hpath, get_bind_apply] at hrun hcache
    cases cap with
    | some cap => exact walkPath_values hrun
    | none =>
      cases hcached : st.pathCache (id, focus) with
      | some values =>
        rw [hcached] at hrun
        cases hrun
        exact hcache vs hcached
      | none =>
        rw [hcached] at hrun
        obtain ⟨⟨values, st₁⟩, hwalk, hrest⟩ := Fallible.bind_eq_ok.mp hrun
        cases hrest
        exact walkPath_values hwalk

/-- A computation on the value nodes of a shape. -/
theorem preserves_onValues {β : Type} (id : ShapeId) (focus : TermId) (cap : Option Nat)
    {f : NodeSet → EvalM β}
    (hf : ∀ values : NodeSet, (∀ v ∈ values, ctx.Value id focus v) → Preserves ctx pairs (f values)) :
    Preserves ctx pairs (shapeValues ctx id focus cap >>= f) :=
  (preserves_shapeValues id focus cap).bindOf (fun _ _ _ hst => shapeValues_values hst) hf

theorem preserves_reportAll (id : ShapeId) (focus : TermId) (constraint : ResolvedConstraint)
    (emit : Bool) (violations : List Violation) :
    Preserves ctx pairs (reportAll ctx id focus constraint emit violations) :=
  .everyM (fun violation _ => (preserves_violate id constraint focus violation emit).bind
    fun _ => .pure false) (preserves_stop emit)

theorem preserves_checkValues (id : ShapeId) (focus : TermId) (constraint : ResolvedConstraint)
    (emit : Bool) {check : TermId → EvalM Bool}
    (hcheck : ∀ v, ctx.Value id focus v → Preserves ctx pairs (check v)) :
    Preserves ctx pairs (checkValues ctx id focus constraint emit check) := by
  refine preserves_onValues id focus none fun values hvalues => .everyM (fun v hv => ?_)
    (preserves_stop emit)
  have hvalue := hvalues v (Std.ExtTreeSet.mem_toList.mp hv)
  refine (hcheck v hvalue).bind fun holds => .ite (fun _ => .pure true) fun _ => ?_
  exact (preserves_violate id constraint focus (.ofValue v) emit).bind fun _ => .pure false

theorem preserves_hasValue (id : ShapeId) (focus expected : TermId) :
    Preserves ctx pairs (hasValue ctx id focus expected) := by
  unfold hasValue
  split
  · exact .pure _
  · exact .pure _
  · exact .pure _
  · exact (preserves_shapeValues id focus none).bind fun _ => .pure _

theorem preserves_evaluateConstraint {conforms : ShapeId → TermId → EvalM Bool} (id : ShapeId)
    (focus : TermId) (emit : Bool) (constraint : ResolvedConstraint)
    (hnested : ∀ s ∈ constraint.nested, ∀ v, ctx.Value id focus v →
      Preserves ctx pairs (conforms s v)) :
    Preserves ctx pairs (evaluateConstraint ctx conforms id focus emit constraint) := by
  cases constraint with
  | minCount minimum | maxCount maximum =>
    exact (preserves_shapeValues id focus _).bind fun _ => preserves_reportAll id focus _ emit _
  | hasValue expected =>
    exact (preserves_hasValue id focus expected).bind fun _ =>
      preserves_reportAll id focus _ emit _
  | closed ignored => exact preserves_reportAll id focus _ emit _
  | node shape => exact preserves_checkValues id focus _ emit (hnested shape mem_cons_self)
  | not shape =>
    exact preserves_checkValues id focus _ emit fun v =>
      fun hv => (hnested shape mem_cons_self v hv).bind fun _ => .pure _
  | and shapes | or shapes | xone shapes =>
    exact preserves_checkValues id focus _ emit fun v hv =>
      Stateful.Keeps.bind (.countM fun shape hshape => hnested shape hshape v hv) fun _ => .pure _
  | qualifiedValueShape shape minCount maxCount isDisjoint siblings =>
    have hqualifies : ∀ v, ctx.Value id focus v →
        Preserves ctx pairs (qualifies conforms shape isDisjoint siblings v) := by
      intro v hv
      refine (hnested shape mem_cons_self v hv).bind fun _ =>
        .ite (fun _ => .ite (fun hdisjoint => ?_) fun _ => .pure true) fun _ => .pure false
      refine Stateful.Keeps.bind (.someM fun sibling hsibling => hnested sibling ?_ v hv)
        fun _ => .pure _
      rw [nested, if_pos hdisjoint]
      exact mem_cons_of_mem _ hsibling
    refine preserves_onValues id focus none fun values hvalues => ?_
    refine Stateful.Keeps.bind (.countM fun v hv =>
      hqualifies v (hvalues v (Std.ExtTreeSet.mem_toList.mp hv))) fun count => ?_
    refine (preserves_violateIf id _ focus _ emit _).bind fun _ => ?_
    exact (preserves_violateIf id _ focus _ emit _).bind fun _ => .pure _
  | _ =>
    exact (preserves_shapeValues id focus none).bind fun _ => preserves_reportAll id focus _ emit _

theorem preserves_evaluateBody {evaluate : ShapeId → TermId → Bool → EvalM Bool} (id : ShapeId)
    (focus : TermId) (emit : Bool)
    (hnested : ∀ s v, ctx.schema.Nested id s → ctx.Value id focus v → ∀ emit,
      Preserves ctx pairs (evaluate s v emit)) :
    Preserves ctx pairs (evaluateBody ctx evaluate id focus emit) := by
  have hconstraint : ∀ c ∈ (ctx.schema.shape id).constraints, ∀ s ∈ c.nested,
      ctx.schema.Nested id s := fun c hc s hs =>
    mem_append_right _ (mem_flatMap.mpr ⟨c, hc, hs⟩)
  have hproperty : ∀ s ∈ (ctx.schema.shape id).propertyShapes, ctx.schema.Nested id s :=
    fun s hs => mem_append_left _ hs
  have hpairs : ∀ nodes : NodeSet, (∀ v ∈ nodes, ctx.Value id focus v) → Preserves ctx pairs
      (everyM (stop emit) (fun pair => evaluate pair.2 pair.1 emit)
        (nodes.toList.flatMap fun v =>
          (ctx.schema.shape id).propertyShapes.map fun property => (v, property))) := by
    refine fun nodes hnodes => .everyM (fun pair hpair => ?_) (preserves_stop emit)
    obtain ⟨v, hv, hpair⟩ := mem_flatMap.mp hpair
    obtain ⟨s, hs, rfl⟩ := mem_map.mp hpair
    exact hnested s v (hproperty s hs) (hnodes v (Std.ExtTreeSet.mem_toList.mp hv)) emit
  have hproperties : Preserves ctx pairs (evaluateProperties ctx evaluate id focus emit) := by
    unfold evaluateProperties propertyFocusNodes
    cases hkind : (ctx.schema.shape id).kind with
    | node =>
      refine hpairs _ fun v hv => ?_
      rw [EvalContext.Value, (ctx.schema.kind_eq_node id).mp hkind]
      exact Ordered.mem_insert_empty.mp hv
    | property => exact preserves_onValues id focus none hpairs
  refine Stateful.Keeps.bind (.everyM (fun c hc => ?_) (preserves_stop emit)) fun conforms => ?_
  · exact preserves_evaluateConstraint id focus emit c fun s hs v hv =>
      hnested s v (hconstraint c hc s hs) hv false
  · refine Stateful.Keeps.getBind fun st _ => ?_
    exact .ite (fun _ => hproperties.bind fun _ => .pure _) fun _ => .pure _

theorem inProgress_set {st : Validator} (hst : st.InProgress ctx pairs) (key : ShapeId × TermId) :
    Validator.InProgress ctx (insert key pairs) { st with
      conformanceCache := Function.update st.conformanceCache key (some .inProgress) } := by
  refine ⟨fun k => ?_, hst.values⟩
  simp only [Function.update_apply, Set.mem_insert_iff, ← hst.pairs k]
  by_cases hk : k = key
  · simp [hk]
  · simp [hk]

theorem inProgress_clear {st : Validator} {key : ShapeId × TermId} (hkey : key ∉ pairs)
    (hst : st.InProgress ctx (insert key pairs)) {cached : CachedConformance}
    (hcached : cached ≠ .inProgress) :
    Validator.InProgress ctx pairs { st with
      conformanceCache := Function.update st.conformanceCache key (some cached) } := by
  refine ⟨fun k => ?_, hst.values⟩
  simp only [Function.update_apply]
  by_cases hk : k = key
  · simp [hk, hkey, hcached]
  · rw [if_neg hk, hst.pairs k, Set.mem_insert_iff, or_iff_right hk]

theorem preserves_remembered {id : ShapeId} {focus : TermId} {body : EvalM Bool}
    (hkey : (id, focus) ∉ pairs) (hbody : Preserves ctx (insert (id, focus) pairs) body) :
    Preserves ctx pairs (do
      setConformance id focus .inProgress
      let conforms ← body
      setConformance id focus (if conforms then .conforms else .violates)
      pure conforms) := by
  refine Ends.bind (.modify fun st hst => inProgress_set hst (id, focus)) fun _ => ?_
  refine Ends.bind hbody fun conforms => ?_
  refine Ends.bind (.modify fun st hst => inProgress_clear hkey hst ?_) fun _ =>
    Stateful.Keeps.pure conforms
  cases conforms <;> simp

/-- When the chains of pairs from a pair are bounded, its evaluation never asks for a pair in
progress, and is never nested deeper than the bound. -/
theorem evaluateShape_keeps {depth : Nat} {id : ShapeId} {focus : TermId}
    (hdepth : ∀ chain, IsChain ctx.LooksAt ((id, focus) :: chain) → chain.length < depth)
    (hpairs : ∀ key ∈ pairs, TransGen ctx.LooksAt key (id, focus)) (emit : Bool) :
    Preserves ctx pairs (evaluateShape ctx depth id focus emit) := by
  induction depth generalizing id pairs focus emit with
  | zero => exact absurd (hdepth [] (.singleton _)) (Nat.not_lt_zero _)
  | succ depth ih =>
    have hkey : (id, focus) ∉ pairs := fun h => not_transGen_self hdepth (hpairs _ h)
    rw [evaluateShape]
    refine .ite (fun _ => .pure true) fun hactive => ?_
    have hbelow : ∀ {more : Set (ShapeId × TermId)},
        (∀ key ∈ more, ReflTransGen ctx.LooksAt key (id, focus)) →
        ∀ s v, ctx.schema.Nested id s → ctx.Value id focus v → ∀ emit,
          Preserves ctx more (evaluateShape ctx depth s v emit) := by
      intro more hmore s v hs hv emit
      have hlooks : ctx.LooksAt (id, focus) (s, v) := ⟨hactive, hs, hv⟩
      refine ih (fun chain hchain => ?_) (fun key hkey => .tail' (hmore key hkey) hlooks) emit
      exact Nat.lt_of_succ_lt_succ (hdepth _ (isChain_cons_cons.mpr ⟨hlooks, hchain⟩))
    refine .ite (fun _ => ?_) fun _ => ?_
    · exact preserves_evaluateBody id focus true
        (hbelow fun key hkey => (hpairs key hkey).to_reflTransGen)
    refine Stateful.Keeps.getBind fun st hst => ?_
    cases hcached : st.conformanceCache (id, focus) with
    | none =>
      refine preserves_remembered hkey (preserves_evaluateBody id focus false (hbelow ?_))
      rintro key (rfl | hin)
      · exact .refl
      · exact (hpairs key hin).to_reflTransGen
    | some cached =>
      cases cached with
      | conforms => exact .pure true
      | violates => exact .pure false
      | inProgress => exact absurd ((hst.pairs (id, focus)).mp hcached) hkey

end Keeps

/-! ## Schemas without recursion -/

/-- No evaluation of a shape evaluates the shape again, however deep. -/
def ResolvedSchema.NonRecursive (schema : ResolvedSchema) : Prop := Acyclic schema.Nested

theorem ResolvedSchema.NonRecursive.exists_rank {schema : ResolvedSchema}
    (h : schema.NonRecursive) :
    ∃ rank : ShapeId → Nat, (∀ a b, schema.Nested a b → rank b < rank a) ∧
      ∀ id < schema.shapes.length, rank id < schema.shapes.length := by
  let nodes := Finset.range schema.shapes.length
  refine ⟨Acyclicity.rank schema.Nested nodes, fun a b hab => ?_, fun id hid => ?_⟩
  · exact rank_lt_rank h hab (Finset.mem_range.mpr hab.lt_length)
  · have hlt := rank_lt_card h (Finset.mem_range.mpr hid : id ∈ nodes)
    rwa [Finset.card_range] at hlt

/-- Along references without a cycle a chain has no more pairs than there are shapes. -/
theorem chain_lt_of_acyclic {schema : ResolvedSchema} {S : ShapeId → ShapeId → Prop}
    (hacyclic : Acyclic S) (hS : ∀ a b, S a b → schema.Nested a b)
    {p : ShapeId × TermId} (hp : p.1 < schema.shapes.length) {chain : List (ShapeId × TermId)}
    (h : IsChain (fun p q : ShapeId × TermId => S p.1 q.1) (p :: chain)) :
    chain.length < schema.shapes.length := by
  let nodes := Finset.range schema.shapes.length
  have hfalls : ∀ p q : ShapeId × TermId, S p.1 q.1 →
      Acyclicity.rank S nodes q.1 < Acyclicity.rank S nodes p.1 := fun p q hpq =>
    rank_lt_rank hacyclic hpq (Finset.mem_range.mpr (hS _ _ hpq).lt_length)
  have hle := length_le_of_isChain hfalls h
  have hlt := rank_lt_card hacyclic (Finset.mem_range.mpr hp : p.1 ∈ nodes)
  rw [Finset.card_range] at hlt
  exact Nat.lt_of_le_of_lt hle hlt

theorem ResolvedSchema.NonRecursive.chain_lt {ctx : EvalContext} (h : ctx.schema.NonRecursive)
    {p : ShapeId × TermId} (hp : p.1 < ctx.schema.shapes.length)
    {chain : List (ShapeId × TermId)} (hchain : IsChain ctx.LooksAt (p :: chain)) :
    chain.length < ctx.schema.shapes.length :=
  chain_lt_of_acyclic h (fun _ _ hab => hab) hp (hchain.imp fun _ _ hlooks => hlooks.2.1)

/-- Without recursion there are verdicts on all pairs, and only one way to give them. -/
theorem ResolvedSchema.NonRecursive.exists_verdicts {ctx : EvalContext}
    (h : ctx.schema.NonRecursive) : ∃ C, Verdicts ctx C ∧ ∀ C', Verdicts ctx C' → C' = C := by
  obtain ⟨rank, hrank, -⟩ := h.exists_rank
  obtain ⟨C, hC⟩ := exists_solution rank hrank (local_shapeVerdict ctx)
  have hverdicts : ∀ {C : ShapeId → TermId → Bool},
      Verdicts ctx C ↔ ∀ id, C id = shapeVerdict ctx C id := by
    intro C
    exact forall_congr' fun id => funext_iff.symm
  refine ⟨C, hverdicts.mpr hC, fun C' hC' => ?_⟩
  exact solution_unique rank hrank (local_shapeVerdict ctx) (hverdicts.mp hC') hC

/-- The shapes that a constraint refers to in the shapes graph. -/
def ResolvedConstraint.references : ResolvedConstraint → List ShapeId
  | .or shapes | .and shapes | .xone shapes => shapes
  | .not shape | .node shape => [shape]
  | .qualifiedValueShape shape _ _ _ _ => [shape]
  | _ => []

/-- The siblings that the evaluation of a constraint looks at. -/
def ResolvedConstraint.disjointSiblings : ResolvedConstraint → List ShapeId
  | .qualifiedValueShape _ _ _ isDisjoint siblings => if isDisjoint then siblings else []
  | _ => []

theorem ResolvedConstraint.mem_nested {c : ResolvedConstraint} {id : ShapeId} :
    id ∈ c.nested ↔ id ∈ c.references ∨ id ∈ c.disjointSiblings := by
  cases c with
  | qualifiedValueShape shape minCount maxCount isDisjoint siblings | _ =>
    simp [nested, references, disjointSiblings]

def ResolvedSchema.Refers (schema : ResolvedSchema) (a b : ShapeId) : Prop :=
  b ∈ (schema.shape a).propertyShapes ∨ ∃ c ∈ (schema.shape a).constraints, b ∈ c.references

def ResolvedSchema.Sibling (schema : ResolvedSchema) (a b : ShapeId) : Prop :=
  ∃ c ∈ (schema.shape a).constraints, b ∈ c.disjointSiblings

/-- A shape looks at a sibling that leads back to it. -/
def ResolvedSchema.LeadsBack (schema : ResolvedSchema) (a b : ShapeId) : Prop :=
  schema.Sibling a b ∧ ReflTransGen schema.Nested b a

theorem ResolvedSchema.nested_iff {schema : ResolvedSchema} {a b : ShapeId} :
    schema.Nested a b ↔ schema.Refers a b ∨ schema.Sibling a b := by
  rw [Nested, CompiledShape.nested, mem_append, mem_flatMap, Refers, Sibling, or_assoc]
  refine or_congr_right ?_
  rw [← exists_or]
  refine exists_congr fun c => ?_
  rw [mem_nested, and_or_left]

/-! ## Compiled shapes -/

/-- The shapes of a schema are compiled as a shapes graph states them: references are triples or
members of well-formed lists, and the siblings of a qualified value shape are the qualified value
shapes of the other property shapes of a parent. -/
structure CompiledFrom (graph : List ShapesTriple) (schema : ResolvedSchema) : Prop where
  property : ∀ id, ∀ p ∈ (schema.shape id).propertyShapes,
    ⟨(schema.shape id).label, .property, .node (schema.shape p).label⟩ ∈ graph
  node : ∀ id shape, .node shape ∈ (schema.shape id).constraints →
    ⟨(schema.shape id).label, .node, .node (schema.shape shape).label⟩ ∈ graph
  not : ∀ id shape, .not shape ∈ (schema.shape id).constraints →
    ⟨(schema.shape id).label, .not, .node (schema.shape shape).label⟩ ∈ graph
  and : ∀ id shapes, .and shapes ∈ (schema.shape id).constraints →
    ∃ list, ⟨(schema.shape id).label, .and, .node list⟩ ∈ graph ∧
      RdfList graph list (shapes.map fun s => (schema.shape s).label)
  or : ∀ id shapes, .or shapes ∈ (schema.shape id).constraints →
    ∃ list, ⟨(schema.shape id).label, .or, .node list⟩ ∈ graph ∧
      RdfList graph list (shapes.map fun s => (schema.shape s).label)
  xone : ∀ id shapes, .xone shapes ∈ (schema.shape id).constraints →
    ∃ list, ⟨(schema.shape id).label, .xone, .node list⟩ ∈ graph ∧
      RdfList graph list (shapes.map fun s => (schema.shape s).label)
  qualified : ∀ id shape minCount maxCount isDisjoint siblings,
    .qualifiedValueShape shape minCount maxCount isDisjoint siblings ∈
      (schema.shape id).constraints →
    ⟨(schema.shape id).label, .qualifiedValueShape, .node (schema.shape shape).label⟩ ∈ graph ∧
      ∀ s ∈ siblings, s ≠ shape ∧ ∃ parent other,
        ⟨parent, .property, .node (schema.shape id).label⟩ ∈ graph ∧
        ⟨parent, .property, .node other⟩ ∈ graph ∧
        ⟨other, .qualifiedValueShape, .node (schema.shape s).label⟩ ∈ graph

section Compiled

variable {graph : List ShapesTriple} {refs : ShapeReferences} {schema : ResolvedSchema}

theorem CompiledFrom.edge (h : CompiledFrom graph schema) (hrefs : ReferencesOf graph refs)
    {a b : ShapeId} (hab : schema.Refers a b) :
    (schema.shape b).label ∈ nestedShapes (shapeEdges graph refs) (schema.shape a).label := by
  have hlist : ∀ {shapes : List ShapeId} {p : ShapesPredicate}, p.isLogical = true →
      (∃ list, ⟨(schema.shape a).label, p, .node list⟩ ∈ graph ∧
        RdfList graph list (shapes.map fun s => (schema.shape s).label)) → b ∈ shapes →
      (schema.shape b).label ∈ nestedShapes (shapeEdges graph refs) (schema.shape a).label := by
    rintro shapes p hp ⟨list, hmem, hmembers⟩ hb
    exact edge_of_list hrefs hp hmem hmembers (mem_map.mpr ⟨b, hb, rfl⟩)
  rcases hab with hb | ⟨c, hc, hb⟩
  · exact edge_of_reference hrefs rfl (h.property a b hb)
  cases c with
  | node shape =>
    cases mem_singleton.mp hb
    exact edge_of_reference hrefs rfl (h.node a b hc)
  | not shape =>
    cases mem_singleton.mp hb
    exact edge_of_reference hrefs rfl (h.not a b hc)
  | and shapes => exact hlist rfl (h.and a shapes hc) hb
  | or shapes => exact hlist rfl (h.or a shapes hc) hb
  | xone shapes => exact hlist rfl (h.xone a shapes hc) hb
  | qualifiedValueShape shape minCount maxCount isDisjoint siblings =>
    cases mem_singleton.mp hb
    exact edge_of_reference hrefs rfl (h.qualified a b _ _ _ _ hc).1
  | _ => cases hb

/-- In an accepted schema every cycle of nested shapes goes through a sibling that leads back. -/
theorem acyclic_of_accepted (h : CompiledFrom graph schema)
    (haccepted : rejectRecursiveShapes graph = .ok ()) :
    Acyclic fun a b => schema.Nested a b ∧ ¬ schema.LeadsBack a b := by
  obtain ⟨refs, hrun, -⟩ := Fallible.bind_eq_ok.mp haccepted
  have hrefs : ReferencesOf graph refs := referencesOf_empty.run hrun
  have hacyclic := (rejectRecursiveShapes_eq_ok hrun).mp haccepted
  have hrefers : Acyclic schema.Refers := by
    intro a hcycle
    refine hacyclic (schema.shape a).label ?_
    exact hcycle.lift (fun s => (schema.shape s).label) fun x y hxy => h.edge hrefs hxy
  have hor : Acyclic fun x y =>
      schema.Refers x y ∨ schema.Sibling x y ∧ ¬ schema.LeadsBack x y := by
    refine acyclic_or hrefers fun x y hxy hback => hxy.2 ⟨hxy.1, ?_⟩
    exact hback.lift (fun s => s) fun _ _ h => nested_iff.mpr (h.imp_right fun hs => hs.1)
  refine fun a hcycle => hor a (hcycle.lift (fun s => s) fun x y hxy => ?_)
  exact (nested_iff.mp hxy.1).imp_right fun hs => ⟨hs, hxy.2⟩

theorem nonRecursive_of_accepted (h : CompiledFrom graph schema)
    (haccepted : rejectRecursiveShapes graph = .ok ())
    (hsiblings : ∀ a b, schema.Sibling a b → ¬ ReflTransGen schema.Nested b a) :
    schema.NonRecursive := fun a hcycle =>
  acyclic_of_accepted h haccepted a
    (hcycle.lift (fun s => s) fun x y hxy => ⟨hxy, fun hback => hsiblings x y hback.1 hback.2⟩)

end Compiled

/-! ## Disjoint siblings -/

def siblingShapes (back : Bool) : List CompiledShape :=
  [{ CompiledShape.empty with label := "n", propertyShapes := [1, 2] },
    { CompiledShape.empty with
      label := "p", kind := .property, path := some (.predicate 10),
      constraints := [.qualifiedValueShape 3 (some 1) none true [4]] },
    { CompiledShape.empty with
      label := "q", kind := .property, path := some (.predicate 11),
      constraints := [.qualifiedValueShape 4 (some 1) none false [3]] },
    { CompiledShape.empty with label := "a" },
    { CompiledShape.empty with label := "b", propertyShapes := if back then [1] else [] }]

def siblingGraph (back : Bool) : List ShapesTriple :=
  [⟨"n", .property, .node "p"⟩, ⟨"n", .property, .node "q"⟩,
    ⟨"p", .qualifiedValueShape, .node "a"⟩, ⟨"q", .qualifiedValueShape, .node "b"⟩] ++
    if back then [⟨"b", .property, .node "p"⟩] else []

def siblingSchema (back : Bool) : ResolvedSchema where
  shapes := siblingShapes back
  closed := by cases back <;> decide
  labels := by cases back <;> decide
  kinds := by cases back <;> decide

def contextOf (schema : ResolvedSchema) (triples : List (TermId × TermId × TermId)) :
    EvalContext where
  data :=
    { view := .ofTriples triples, rdfType := 0, termMeta := fun _ => none,
      partialCmp := fun _ _ => none }
  schema := schema
  options := .default
  stopAfterFirst := false

theorem siblingSchema_compiled (back : Bool) :
    CompiledFrom (siblingGraph back) (siblingSchema back) := by
  refine ⟨?_, ?_, ?_, ?_, ?_, ?_, ?_⟩
  all_goals
    intro id
    rcases id with _ | _ | _ | _ | _ | id
    all_goals
      cases back <;>
        simp +contextual [siblingSchema, siblingShapes, siblingGraph, shape,
          CompiledShape.empty]

theorem siblingSchema_siblings (a b : ShapeId) (h : (siblingSchema false).Sibling a b) :
    ¬ ReflTransGen (siblingSchema false).Nested b a := by
  obtain ⟨c, hc, hb⟩ := h
  have hab : a = 1 ∧ b = 4 := by
    rcases a with _ | _ | _ | _ | _ | a
    all_goals
      simp [siblingSchema, siblingShapes, shape, CompiledShape.empty] at hc
    all_goals
      subst hc
      simp only [disjointSiblings, Bool.false_eq_true, if_true, if_false,
        mem_singleton, not_mem_nil] at hb
    exact ⟨rfl, hb⟩
  obtain ⟨rfl, rfl⟩ := hab
  intro hreach
  -- nothing is nested in the sibling
  rcases ReflTransGen.cases_head hreach with heq | ⟨d, hnested, -⟩
  · cases heq
  · cases hnested

end Craqle
