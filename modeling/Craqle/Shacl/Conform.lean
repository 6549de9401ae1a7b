import Craqle.Shacl.Depth

/-! # Conformance

`ConformsAt` says when a focus conforms to a shape in SHACL Core, given which nodes conform to the
shapes nested in it. It speaks of the value nodes as a set and of conformance as a relation, so it
knows no walks, caches and early exits. For a schema without recursion there is exactly one relation
that meets it on all shapes.

For three kinds of constraints the evaluator has a test of its own (`ResolvedConstraint.Passes`). On
a shape with a path it checks `sh:closed` on the triples of the focus and not of the value nodes; it
does not follow `rdfs:subClassOf` for `sh:class`; and it counts the values that a capped walk finds.
`Follows` says that at a shape and a focus this makes no difference.

An evaluation looks at pairs of shapes and nodes, nested shapes on value nodes. The evaluations of
all pairs it looks at find out whether they are in the relation if and only if the evaluator follows
SHACL Core at each of these pairs (`evaluate_shape_conforms_iff`). Verdicts are compared at all of
these pairs, because a wrong verdict on a nested shape can be without effect on the outer one, as
one of two alternatives or under two negations. `closed_shape_checks_focus` is a schema on which the
evaluator does not follow SHACL Core.
-/

namespace Craqle

open Std (ExtTreeSet)
open Relation (ReflTransGen)
open Stateful List EvalContext Ordered

section Conformance

variable (ctx : EvalContext) (subClassOf : TermId)

def EvalContext.Triple (s p o : TermId) : Prop := (p, o) ∈ ctx.data.view.scan s

/-- A node is an instance of its types and of their superclasses. -/
def EvalContext.InstanceOf (v c : TermId) : Prop :=
  ∃ t, ctx.Triple v ctx.data.rdfType t ∧ ReflTransGen (fun a b => ctx.Triple a subClassOf b) t c

def EvalContext.language (v : TermId) : Option String :=
  (ctx.data.termMeta v).bind TermMeta.language

/-- A property holds of one member of a list, and of no other. -/
def ExactlyOne {α : Type} (P : α → Prop) (xs : List α) : Prop :=
  ∃ before x after, xs = before ++ x :: after ∧ P x ∧ ∀ y ∈ before ++ after, ¬ P y

variable (K : ShapeId → TermId → Prop)

def QualifiedValues (id : ShapeId) (focus : TermId) (shape : ShapeId) (isDisjoint : Bool)
    (siblings : List ShapeId) : Set TermId :=
  {v | ctx.Value id focus v ∧ K shape v ∧ (isDisjoint = true → ∀ s ∈ siblings, ¬ K s v)}

/-- A focus meets a constraint of a shape, where `K` says which nodes conform to which shapes. What
the other constraints ask of a single value is a matter of its term alone. -/
def Meets (id : ShapeId) (focus : TermId) : ResolvedConstraint → Prop
  | .class c => ∀ v, ctx.Value id focus v → ctx.InstanceOf subClassOf v c
  | .in allowed => ∀ v, ctx.Value id focus v → v ∈ allowed
  | .hasValue expected => ctx.Value id focus expected
  | .equals p => ∀ v, ctx.Value id focus v ↔ ctx.Triple focus p v
  | .disjoint p => ∀ v, ctx.Value id focus v → ¬ ctx.Triple focus p v
  | .uniqueLang required => required = true → ∀ v w language, ctx.Value id focus v →
      ctx.Value id focus w → ctx.language v = some language → ctx.language w = some language →
      v = w
  | .node shape => ∀ v, ctx.Value id focus v → K shape v
  | .not shape => ∀ v, ctx.Value id focus v → ¬ K shape v
  | .and shapes => ∀ v, ctx.Value id focus v → ∀ s ∈ shapes, K s v
  | .or shapes => ∀ v, ctx.Value id focus v → ∃ s ∈ shapes, K s v
  | .xone shapes => ∀ v, ctx.Value id focus v → ExactlyOne (K · v) shapes
  | .closed ignored => ∀ v, ctx.Value id focus v → ∀ p o, ctx.Triple v p o →
      p ∈ ignored ∨ ∃ property ∈ (ctx.schema.shape id).propertyShapes,
        (ctx.schema.shape property).path = some (.predicate p)
  | .qualifiedValueShape shape minCount maxCount isDisjoint siblings =>
    (∀ m ∈ minCount, m ≤ (QualifiedValues ctx K id focus shape isDisjoint siblings).ncard) ∧
      ∀ m ∈ maxCount, (QualifiedValues ctx K id focus shape isDisjoint siblings).ncard ≤ m
  | .minCount minimum => minimum ≤ {v | ctx.Value id focus v}.ncard
  | .maxCount maximum => {v | ctx.Value id focus v}.ncard ≤ maximum
  | constraint => ∀ v, ctx.Value id focus v →
      valueViolations ctx focus ((∅ : NodeSet).insert v) constraint = []

def ConformsAt (id : ShapeId) (focus : TermId) : Prop :=
  (ctx.schema.shape id).deactivated = true ∨
    (∀ c ∈ (ctx.schema.shape id).constraints, Meets ctx subClassOf K id focus c) ∧
      ∀ v, ctx.Value id focus v → ∀ property ∈ (ctx.schema.shape id).propertyShapes, K property v

/-- `K` is a conformance relation for the schema. -/
def Conformance : Prop := ∀ id focus, K id focus ↔ ConformsAt ctx subClassOf K id focus

/-- The constraints that the evaluator has a test of its own for. -/
def ResolvedConstraint.HasTest : ResolvedConstraint → Prop
  | .class _ | .closed _ | .minCount _ | .maxCount _ => True
  | _ => False

/-- What the evaluator finds out about a constraint, where `K` says which nodes conform to which
shapes. -/
def ResolvedConstraint.Passes (id : ShapeId) (focus : TermId) : ResolvedConstraint → Prop
  | .class c => ∀ v, ctx.Value id focus v → ctx.Triple v ctx.data.rdfType c
  | .closed ignored => ∀ p o, ctx.Triple focus p o →
      p ∈ ignored ∨ ∃ property ∈ (ctx.schema.shape id).propertyShapes,
        (ctx.schema.shape property).path = some (.predicate p)
  | .minCount minimum => minimum ≤ (ctx.values id focus (minCountCap minimum)).size
  | .maxCount maximum => (ctx.values id focus (maxCountCap maximum)).size ≤ maximum
  | constraint => Meets ctx subClassOf K id focus constraint

/-- The evaluator follows SHACL Core at a shape and a focus: unless the shape is switched off or the
focus fails it for another reason, the focus passes the tests of the constraints that the evaluator
has a test of its own for exactly if it meets these constraints. -/
def Follows (id : ShapeId) (focus : TermId) : Prop :=
  (ctx.schema.shape id).deactivated = false →
  (∀ c ∈ (ctx.schema.shape id).constraints, ¬ c.HasTest → Meets ctx subClassOf K id focus c) →
  (∀ v, ctx.Value id focus v → ∀ property ∈ (ctx.schema.shape id).propertyShapes, K property v) →
    ((∀ c ∈ (ctx.schema.shape id).constraints, c.HasTest → c.Passes ctx subClassOf K id focus) ↔
      ∀ c ∈ (ctx.schema.shape id).constraints, c.HasTest → Meets ctx subClassOf K id focus c)

/-- What an evaluation finds out about a shape and a focus, where `K` says which nodes conform to
which shapes. -/
def PassesAt (id : ShapeId) (focus : TermId) : Prop :=
  (ctx.schema.shape id).deactivated = true ∨
    (∀ c ∈ (ctx.schema.shape id).constraints, c.Passes ctx subClassOf K id focus) ∧
      ∀ v, ctx.Value id focus v → ∀ property ∈ (ctx.schema.shape id).propertyShapes, K property v

theorem follows_iff {id : ShapeId} {focus : TermId} :
    Follows ctx subClassOf K id focus ↔
      (PassesAt ctx subClassOf K id focus ↔ ConformsAt ctx subClassOf K id focus) := by
  have hplain : ∀ {c : ResolvedConstraint}, ¬ c.HasTest →
      (c.Passes ctx subClassOf K id focus ↔ Meets ctx subClassOf K id focus c) := by
    intro c hc
    cases c with
    | «class» | closed | minCount | maxCount => exact absurd trivial hc
    | _ => exact Iff.rfl
  -- both sides ask for the constraints without a test of their own, and for those with one
  have hpasses : (∀ c ∈ (ctx.schema.shape id).constraints, c.Passes ctx subClassOf K id focus) ↔
      (∀ c ∈ (ctx.schema.shape id).constraints, ¬ c.HasTest → Meets ctx subClassOf K id focus c) ∧
        ∀ c ∈ (ctx.schema.shape id).constraints, c.HasTest →
          c.Passes ctx subClassOf K id focus := by
    refine ⟨fun h => ⟨fun c hc hplain' => (hplain hplain').mp (h c hc), fun c hc _ => h c hc⟩, ?_⟩
    rintro ⟨hmeets, htests⟩ c hc
    by_cases htest : c.HasTest
    · exact htests c hc htest
    · exact (hplain htest).mpr (hmeets c hc htest)
  have hmeets : (∀ c ∈ (ctx.schema.shape id).constraints, Meets ctx subClassOf K id focus c) ↔
      (∀ c ∈ (ctx.schema.shape id).constraints, ¬ c.HasTest → Meets ctx subClassOf K id focus c) ∧
        ∀ c ∈ (ctx.schema.shape id).constraints, c.HasTest →
          Meets ctx subClassOf K id focus c := by
    refine ⟨fun h => ⟨fun c hc _ => h c hc, fun c hc _ => h c hc⟩, fun h c hc => ?_⟩
    exact (em c.HasTest).elim (h.2 c hc) (h.1 c hc)
  rw [Follows, PassesAt, ConformsAt, hpasses, hmeets]
  cases (ctx.schema.shape id).deactivated with
  | true => simp
  | false => tauto

end Conformance

/-! ## Value nodes -/

variable {ctx : EvalContext} {id : ShapeId} {focus v : TermId}

theorem values_eq_valueNodes {path : ResolvedPath} (hpath : (ctx.schema.shape id).path = some path) :
    ctx.values id focus none = path.valueNodes ctx.data.view focus := by
  simp only [values, hpath]
  rcases outcome_cases (pathValues ctx.data.view ctx.options path focus none)
    (path.valueNodes ctx.data.view focus) with ⟨work, work', hrun⟩ | hnone
  · exact pathValues_eq_valueNodes hrun
  · exact hnone

theorem mem_values : v ∈ ctx.values id focus none ↔ ctx.Value id focus v := by
  cases hpath : (ctx.schema.shape id).path with
  | none =>
    simp only [values, EvalContext.Value, hpath]
    exact mem_insert_empty
  | some path =>
    rw [values_eq_valueNodes hpath, ResolvedPath.mem_valueNodes]
    simp [EvalContext.Value, hpath]

theorem mem_focusValues {p : TermId} : v ∈ focusValues ctx focus p ↔ ctx.Triple focus p v := by
  rw [focusValues, mem_ofList, ctx.data.view.mem_forward]
  exact Iff.rfl

theorem tripleExists_iff {s p o : TermId} : tripleExists ctx s p o = true ↔ ctx.Triple s p o :=
  decide_eq_true_iff

theorem failing_eq_nil {check : TermId → Bool} {values : NodeSet} :
    failing check values = [] ↔ ∀ v ∈ values, check v = true := by
  rw [← List.isEmpty_iff, isEmpty_failing, List.all_eq_true]
  simp

/-- A check of each value finds nothing exactly when all value nodes pass it. -/
theorem failing_values_eq_nil {check : TermId → Bool} {P : TermId → Prop}
    (h : ∀ v, check v = true ↔ P v) :
    failing check (ctx.values id focus none) = [] ↔ ∀ v, ctx.Value id focus v → P v := by
  simp [failing_eq_nil, mem_values, h]

/-- The number of members of a set with a property. -/
theorem ncard_countP (values : NodeSet) (p : TermId → Bool) :
    {v | v ∈ values ∧ p v = true}.ncard = values.toList.countP p := by
  have hset : {v | v ∈ values ∧ p v = true} = ((values.toList.filter p).toFinset : Set TermId) := by
    ext v
    simp
  rw [hset, Set.ncard_coe_finset, countP_eq_length_filter]
  exact toFinset_card_of_nodup ((nodup_toList values).filter p)

/-! ## Constraints -/

section Lists

variable {α : Type} {p : α → Bool} {xs : List α}

theorem countP_eq_one : xs.countP p = 1 ↔ ExactlyOne (fun x => p x = true) xs := by
  constructor
  · intro h
    induction xs with
    | nil => simp at h
    | cons x xs ih =>
      rw [countP_cons] at h
      by_cases hx : p x = true
      · rw [if_pos hx, Nat.add_eq_right] at h
        exact ⟨[], x, xs, rfl, hx, by simpa using h⟩
      · rw [if_neg hx, Nat.add_zero] at h
        obtain ⟨before, y, after, rfl, hy, hothers⟩ := ih h
        refine ⟨x :: before, y, after, rfl, hy, ?_⟩
        exact forall_mem_cons.mpr ⟨hx, hothers⟩
  · rintro ⟨before, x, after, rfl, hx, hothers⟩
    have hnone : (before ++ after).countP p = 0 := countP_eq_zero.mpr hothers
    rw [countP_append] at hnone
    rw [countP_append, countP_cons, if_pos hx]
    omega

theorem exactlyOne_congr {P Q : α → Prop} (h : ∀ x ∈ xs, P x ↔ Q x) :
    ExactlyOne P xs ↔ ExactlyOne Q xs := by
  refine exists₃_congr fun before x after => and_congr_right fun hsplit => ?_
  subst hsplit
  refine and_congr (h x (by simp)) (forall₂_congr fun y hy => not_congr (h y ?_))
  rcases mem_append.mp hy with hbefore | hafter
  · exact mem_append_left _ hbefore
  · exact mem_append_right _ (mem_cons_of_mem _ hafter)

end Lists

variable {subClassOf : TermId} {C : ShapeId → TermId → Bool}

theorem repeatedLanguages_eq_nil {values : List TermId} {seen : List String} :
    repeatedLanguages ctx values seen [] = [] ↔
      (values.filterMap ctx.language).Nodup ∧ ∀ l ∈ values.filterMap ctx.language, l ∉ seen := by
  induction values generalizing seen with
  | nil => simp [repeatedLanguages]
  | cons v vs ih =>
    rw [repeatedLanguages]
    cases hv : (ctx.data.termMeta v).bind TermMeta.language with
    | none =>
      have hlanguage : ctx.language v = none := hv
      rw [filterMap_cons_none hlanguage]
      exact ih
    | some language =>
      have hlanguage : ctx.language v = some language := hv
      rw [filterMap_cons_some hlanguage]
      dsimp only
      by_cases hseen : language ∈ seen
      · simp [hseen]
      rw [if_neg fun h => hseen h.1, ih, nodup_cons]
      simp only [mem_cons, not_or, forall_eq_or_imp]
      constructor
      · rintro ⟨hnodup, hfresh⟩
        exact ⟨⟨fun hmem => (hfresh language hmem).1 rfl, hnodup⟩, hseen,
          fun l hl => (hfresh l hl).2⟩
      · rintro ⟨⟨hnew, hnodup⟩, -, hfresh⟩
        refine ⟨hnodup, fun l hl => ⟨?_, hfresh l hl⟩⟩
        rintro rfl
        exact hnew hl

theorem repeatedLanguages_values {values : NodeSet} :
    repeatedLanguages ctx values.toList [] [] = [] ↔
      ∀ v w language, v ∈ values → w ∈ values → ctx.language v = some language →
        ctx.language w = some language → v = w := by
  rw [repeatedLanguages_eq_nil, List.Nodup, pairwise_filterMap]
  simp only [not_mem_nil, not_false_eq_true, implies_true, and_true]
  constructor
  · intro hpair v w language hv hw hlv hlw
    by_contra hne
    have : Std.Symm fun a b => ∀ x, ctx.language a = some x → ∀ y, ctx.language b = some y →
        x ≠ y := ⟨fun a b h x hx y hy heq => h y hy x hx heq.symm⟩
    exact hpair.forall (ExtTreeSet.mem_toList.mpr hv) (ExtTreeSet.mem_toList.mpr hw) hne
      language hlv language hlw rfl
  · intro h
    refine (nodup_toList values).imp_of_mem fun hv hw hne x hx y hy heq => ?_
    subst heq
    exact hne (h _ _ x (ExtTreeSet.mem_toList.mp hv) (ExtTreeSet.mem_toList.mp hw) hx hy)

theorem hasValueVerdict_iff {expected : TermId} :
    hasValueVerdict ctx id focus expected = true ↔ ctx.Value id focus expected := by
  have hmem : decide (expected ∈ ctx.values id focus none) = true ↔ ctx.Value id focus expected :=
    decide_eq_true_iff.trans mem_values
  rw [EvalContext.Value] at hmem ⊢
  rw [hasValueVerdict]
  cases hpath : (ctx.schema.shape id).path with
  | none =>
    simp only [beq_iff_eq]
    exact eq_comm
  | some path =>
    rw [hpath] at hmem
    cases path with
    | predicate p => exact tripleExists_iff
    | inverse inner =>
      cases inner with
      | predicate p => exact tripleExists_iff
      | _ => exact hmem
    | _ => exact hmem

theorem mem_allowedPredicates {ignored : NodeSet} {p : TermId} :
    p ∈ allowedPredicates ctx id ignored ↔
      p ∈ ignored ∨ ∃ property ∈ (ctx.schema.shape id).propertyShapes,
        (ctx.schema.shape property).path = some (.predicate p) := by
  refine Updates.foldl_iff_exists (P := (p ∈ ·)) (fun allowed property => ?_) _ _
  split
  · next q hpath =>
    rw [mem_insert, hpath, or_comm]
    simp [eq_comm]
  · next hother =>
    refine ⟨.inl, ?_⟩
    rintro (hmem | hpath)
    · exact hmem
    · exact absurd hpath (hother p)

theorem closedViolations_eq_nil {ignored : NodeSet} :
    closedViolations ctx id focus ignored = [] ↔ ∀ p o, ctx.Triple focus p o →
      p ∈ ignored ∨ ∃ property ∈ (ctx.schema.shape id).propertyShapes,
        (ctx.schema.shape property).path = some (.predicate p) := by
  rw [closedViolations, map_eq_nil_iff, filter_eq_nil_iff]
  simp only [Bool.not_eq_true', decide_eq_false_iff_not, not_not, mem_allowedPredicates,
    Prod.forall]
  exact Iff.rfl

theorem qualifiedCount_eq_ncard {shape : ShapeId} {isDisjoint : Bool} {siblings : List ShapeId} :
    qualifiedCount ctx C id focus shape isDisjoint siblings =
      (QualifiedValues ctx (fun s v => C s v = true) id focus shape isDisjoint siblings).ncard := by
  rw [qualifiedCount, ← ncard_countP]
  refine congrArg Set.ncard (Set.ext fun v => ?_)
  cases isDisjoint <;> simp [QualifiedValues, mem_values]

theorem failing_singletons {check : TermId → Bool} :
    failing check (ctx.values id focus none) = [] ↔
      ∀ v, ctx.Value id focus v → failing check ((∅ : NodeSet).insert v) = [] := by
  refine failing_values_eq_nil fun v => ?_
  simp only [failing_eq_nil, mem_insert_empty, forall_eq]

/-- The evaluator finds no violation of a constraint exactly if the focus passes its test. -/
theorem constraintViolations_eq_nil {c : ResolvedConstraint} :
    constraintViolations ctx C id focus c = [] ↔
      c.Passes ctx subClassOf (fun s v => C s v = true) id focus := by
  have hplain : ∀ {b : Bool}, (if b then [] else [Violation.plain]) = [] ↔ b = true := by
    intro b
    cases b <;> simp
  cases c with
  | «class» c => exact failing_values_eq_nil fun v => tripleExists_iff
  | «in» allowed => exact failing_values_eq_nil fun v => decide_eq_true_iff
  | hasValue expected => exact hplain.trans hasValueVerdict_iff
  | equals p =>
    simp only [constraintViolations, valueViolations, ResolvedConstraint.Passes, Meets,
      map_eq_nil_iff, filter_eq_nil_iff, ExtTreeSet.mem_toList, Walk.mem_extend, mem_focusValues,
      mem_values]
    refine forall_congr' fun v => ?_
    by_cases hv : ctx.Value id focus v <;> by_cases ht : ctx.Triple focus p v <;>
      simp [hv, ht, mem_values, mem_focusValues]
  | disjoint p =>
    simp [constraintViolations, valueViolations, ResolvedConstraint.Passes, Meets, mem_focusValues,
      mem_values]
  | uniqueLang required =>
    cases required with
    | false => simp [constraintViolations, valueViolations, ResolvedConstraint.Passes, Meets]
    | true =>
      simp [constraintViolations, valueViolations, ResolvedConstraint.Passes, Meets,
        repeatedLanguages_values, mem_values]
  | node shape => exact failing_values_eq_nil fun v => Iff.rfl
  | not shape =>
    refine failing_values_eq_nil fun v => ?_
    rw [Bool.not_eq_true', Bool.not_eq_true]
  | and shapes =>
    refine failing_values_eq_nil fun v => ?_
    rw [beq_iff_eq, countP_eq_length]
  | or shapes =>
    refine failing_values_eq_nil fun v => ?_
    rw [decide_eq_true_iff, countP_pos_iff]
  | xone shapes =>
    refine failing_values_eq_nil fun v => ?_
    rw [beq_iff_eq, countP_eq_one]
  | closed ignored => exact closedViolations_eq_nil
  | qualifiedValueShape shape minCount maxCount isDisjoint siblings =>
    simp only [constraintViolations, ResolvedConstraint.Passes, Meets, append_eq_nil_iff,
      qualifiedCount_eq_ncard]
    cases minCount <;> cases maxCount <;> simp
  | minCount minimum | maxCount maximum => exact hplain.trans decide_eq_true_iff
  | _ => exact failing_singletons

theorem shapeVerdict_iff : shapeVerdict ctx C id focus = true ↔
    PassesAt ctx subClassOf (fun s v => C s v = true) id focus := by
  have hnodes : ∀ v, v ∈ propertyNodes ctx id focus ↔ ctx.Value id focus v := by
    intro v
    rw [← mem_values, propertyNodes]
    cases hkind : (ctx.schema.shape id).kind with
    | property => exact Iff.rfl
    | node =>
      have hpath := (ctx.schema.kind_eq_node id).mp hkind
      simp [values, hpath]
  rw [shapeVerdict, Bool.or_eq_true, Bool.and_eq_true, constraintsVerdict, all_eq_true,
    all_eq_true, PassesAt]
  refine or_congr_right (and_congr ?_ ?_)
  · refine forall₂_congr fun c hc => ?_
    rw [List.isEmpty_iff, constraintViolations_eq_nil]
  · simp only [propertyPairs, List.mem_flatMap, List.mem_map, ExtTreeSet.mem_toList, hnodes]
    constructor
    · exact fun hall v hv property hproperty => hall (v, property) ⟨v, hv, property, hproperty, rfl⟩
    · rintro hall pair ⟨v, hv, property, hproperty, rfl⟩
      exact hall v hv property hproperty

/-! ## Schemas without recursion -/

section Congr

variable {K K' : ShapeId → TermId → Prop}

/-- A constraint only asks which value nodes conform to the shapes nested in it. -/
theorem meets_congr {c : ResolvedConstraint}
    (h : ∀ s ∈ c.nested, ∀ v, ctx.Value id focus v → (K s v ↔ K' s v)) :
    Meets ctx subClassOf K id focus c ↔ Meets ctx subClassOf K' id focus c := by
  cases c with
  | node shape => exact forall₂_congr fun v hv => h shape mem_cons_self v hv
  | not shape => exact forall₂_congr fun v hv => not_congr (h shape mem_cons_self v hv)
  | and shapes => exact forall₂_congr fun v hv => forall₂_congr fun s hs => h s hs v hv
  | or shapes =>
    exact forall₂_congr fun v hv => exists_congr fun s => and_congr_right fun hs => h s hs v hv
  | xone shapes => exact forall₂_congr fun v hv => exactlyOne_congr fun s hs => h s hs v hv
  | qualifiedValueShape shape minCount maxCount isDisjoint siblings =>
    have hvalues : QualifiedValues ctx K id focus shape isDisjoint siblings =
        QualifiedValues ctx K' id focus shape isDisjoint siblings := by
      refine Set.ext fun v => and_congr_right fun hv => and_congr (h shape mem_cons_self v hv) ?_
      refine imp_congr_right fun hdisjoint => forall₂_congr fun s hs => not_congr (h s ?_ v hv)
      rw [hdisjoint]
      exact mem_cons_of_mem _ hs
    rw [Meets, Meets, hvalues]
  | _ => exact Iff.rfl

theorem passes_congr {c : ResolvedConstraint}
    (h : ∀ s ∈ c.nested, ∀ v, ctx.Value id focus v → (K s v ↔ K' s v)) :
    c.Passes ctx subClassOf K id focus ↔ c.Passes ctx subClassOf K' id focus := by
  cases c with
  | «class» | closed | minCount | maxCount => exact Iff.rfl
  | _ => exact @meets_congr ctx id focus subClassOf K K' _ h

/-- An evaluation only asks for the pairs that it looks at. -/
theorem passesAt_congr (h : ∀ q, ctx.LooksAt (id, focus) q → (K q.1 q.2 ↔ K' q.1 q.2)) :
    PassesAt ctx subClassOf K id focus ↔ PassesAt ctx subClassOf K' id focus := by
  unfold PassesAt
  cases hoff : (ctx.schema.shape id).deactivated with
  | true => simp
  | false =>
    refine or_congr_right (and_congr ?_ ?_)
    · refine forall₂_congr fun c hc => passes_congr fun s hs v hv => h (s, v) ⟨hoff, ?_, hv⟩
      exact mem_append_right _ (mem_flatMap.mpr ⟨c, hc, hs⟩)
    · refine forall₂_congr fun v hv => forall₂_congr fun property hproperty => ?_
      exact h (property, v) ⟨hoff, mem_append_left _ hproperty, hv⟩

end Congr

theorem local_conformsAt :
    Acyclicity.Local ctx.schema.Nested (ConformsAt ctx subClassOf) := by
  intro K K' id h
  funext focus
  refine propext (or_congr_right (and_congr ?_ ?_))
  · refine forall₂_congr fun c hc => meets_congr fun s hs v _ => ?_
    rw [h s (mem_append_right _ (mem_flatMap.mpr ⟨c, hc, hs⟩))]
  · refine forall₂_congr fun v _ => forall₂_congr fun property hproperty => ?_
    rw [h property (mem_append_left _ hproperty)]

theorem ResolvedSchema.NonRecursive.exists_conformance (h : ctx.schema.NonRecursive) :
    ∃ K, Conformance ctx subClassOf K ∧ ∀ K', Conformance ctx subClassOf K' → K' = K := by
  obtain ⟨rank, hrank, -⟩ := h.exists_rank
  obtain ⟨K, hK⟩ := Acyclicity.exists_solution rank hrank (@local_conformsAt ctx subClassOf)
  have hiff : ∀ {K : ShapeId → TermId → Prop},
      Conformance ctx subClassOf K ↔ ∀ id, K id = ConformsAt ctx subClassOf K id := by
    intro K
    refine forall_congr' fun id => ?_
    rw [funext_iff]
    exact forall_congr' fun focus => eq_iff_iff.symm
  refine ⟨K, hiff.mpr hK, fun K' hK' => ?_⟩
  exact Acyclicity.solution_unique rank hrank local_conformsAt (hiff.mp hK') hK

/-- The states of a validator between evaluations. -/
inductive Validator.Reached (ctx : EvalContext) : Validator → Prop where
  | start : Reached ctx .start
  | step {st st' : Validator} {id : ShapeId} {focus : TermId} {emit conforms : Bool}
      (before : Reached ctx st) (known : id < ctx.schema.shapes.length)
      (going : emit = true → ctx.stopAfterFirst = false)
      (run : evaluateShape ctx ctx.schema.shapes.length id focus emit st = .ok (conforms, st')) :
      Reached ctx st'

theorem Validator.Reached.agrees {C : ShapeId → TermId → Bool} (hC : Verdicts ctx C)
    {st : Validator} (h : Reached ctx st) : st.Agrees ctx C := by
  induction h with
  | start => exact agrees_start
  | @step st st' id focus emit conforms _ _ going run ih =>
    cases emit with
    | false => exact (computes_evaluateShape_quiet hC _ id focus ih run).1
    | true => exact (computes_evaluateShape_emit hC (going rfl) _ id focus ih run).1

theorem Validator.Reached.inProgress (hschema : ctx.schema.NonRecursive) {st : Validator}
    (h : Reached ctx st) : st.InProgress ctx ∅ := by
  induction h with
  | start => exact inProgress_start
  | @step st st' id focus emit conforms _ known _ run ih =>
    exact (evaluateShape_keeps (fun _ => hschema.chain_lt known) (by simp) emit ih).1 conforms st' run

section Verdicts

variable {K : ShapeId → TermId → Prop}

/-- The verdicts on all pairs that an evaluation looks at are right exactly if the evaluator follows
SHACL Core at each of them. -/
theorem verdicts_iff_follows (hschema : ctx.schema.NonRecursive) (hC : Verdicts ctx C)
    (hK : Conformance ctx subClassOf K) (p : ShapeId × TermId) :
    (∀ q, ReflTransGen ctx.LooksAt p q → (C q.1 q.2 = true ↔ K q.1 q.2)) ↔
      ∀ q, ReflTransGen ctx.LooksAt p q → Follows ctx subClassOf K q.1 q.2 := by
  have hverdict : ∀ q : ShapeId × TermId, C q.1 q.2 = true ↔
      PassesAt ctx subClassOf (fun s v => C s v = true) q.1 q.2 := by
    intro q
    have hq : C q.1 q.2 = shapeVerdict ctx C q.1 q.2 := hC q.1 q.2
    rw [hq, shapeVerdict_iff]
  have hnested : ∀ q : ShapeId × TermId,
      (∀ r, ctx.LooksAt q r → (C r.1 r.2 = true ↔ K r.1 r.2)) →
        (C q.1 q.2 = true ↔ PassesAt ctx subClassOf K q.1 q.2) := fun q h =>
    (hverdict q).trans (passesAt_congr h)
  constructor
  · intro hright q hq
    rw [follows_iff, ← hK q.1 q.2, ← hnested q fun r hr => hright r (hq.tail hr)]
    exact hright q hq
  · intro hfollows q hq
    obtain ⟨rank, hrank, -⟩ := hschema.exists_rank
    -- along the ranks, because the verdicts on the nested shapes come first
    induction hr : rank q.1 using Nat.strong_induction_on generalizing q with
    | h n ih =>
      subst hr
      have hlooks : ∀ r, ctx.LooksAt q r → (C r.1 r.2 = true ↔ K r.1 r.2) := fun r hr =>
        ih (rank r.1) (hrank q.1 r.1 hr.2.1) r (hq.tail hr) rfl
      rw [hnested q hlooks, hK q.1 q.2]
      exact (follows_iff ctx subClassOf K).mp (hfollows q hq)

end Verdicts

/-- The evaluation of a shape on a focus finds out whether the focus conforms, from every state
between evaluations, unless a budget is exhausted. -/
def EvalContext.Right (ctx : EvalContext) (K : ShapeId → TermId → Prop) (p : ShapeId × TermId) :
    Prop :=
  ∀ st, Validator.Reached ctx st →
    (∃ conforms st', evaluateShape ctx ctx.schema.shapes.length p.1 p.2 false st =
        .ok (conforms, st') ∧ (conforms = true ↔ K p.1 p.2)) ∨
      ∃ e : EvalError, e.IsLimit ∧
        evaluateShape ctx ctx.schema.shapes.length p.1 p.2 false st = .error e

def coreSchema : ResolvedSchema where
  shapes :=
    [{ CompiledShape.empty with
      label := "p", kind := .property, path := some (.predicate 10),
      constraints := [.closed ((∅ : NodeSet).insert 10)] },
      { CompiledShape.empty with label := "n", constraints := [.class 20] }]
  closed := by decide
  labels := by decide
  kinds := by decide

end Craqle
