import Craqle.Shacl.Select

/-! # What an incremental selection covers

The marks that the selection ends with cover what the changes touch (`Marks.Covers`): away from the
candidates of a shape that is not marked as a whole, nothing that the shape reads has changed
(`Undisturbed`). So its constraints have the same violations there, and its nested shapes, which are
clean then, have the same verdicts on all nodes (`Marks.Clean.verdict`).
-/

namespace Craqle

open Std (ExtTreeSet)
open Saturate List ResolvedPath ResolvedSchema

/-! ## What the marks cover -/

variable {data : ShaclData} {schema : ResolvedSchema} {changes : List ChangedQuad}

structure Marks.Touches (data : ShaclData) (schema : ResolvedSchema) (changes : List ChangedQuad)
    (marks : Marks) : Prop where
  candidate : ∀ id, ∀ c ∈ changes, ∀ f ∈ touched data (schema.shape id) c, f ∈ marks.candidates id
  whole : ∀ id, ∀ c ∈ changes, concerns data (schema.shape id) c = true → marks.isGlobal id = true

/-- The marks have what the changes touch, and are closed under the moves. -/
structure Marks.Covers (data : ShaclData) (schema : ResolvedSchema) (changes : List ChangedQuad)
    (marks : Marks) : Prop extends marks.Touches data schema changes where
  passed : ∀ a b, (schema.shape a).kind = .node → b ∈ (schema.shape a).propertyShapes →
    ∀ f ∈ marks.candidates a, f ∈ marks.candidates b
  spread : ∀ a b, b ∈ (schema.shape a).propertyShapes → marks.isGlobal a = true →
    marks.isGlobal b = true
  raised : ∀ id < schema.shapes.length, nestedParent schema marks.changed id = true →
    marks.isGlobal id = true

/-- The invariant of the rounds: no other nodes become candidates. -/
structure Marks.Bounded (data : ShaclData) (schema : ResolvedSchema) (changes : List ChangedQuad)
    (marks : Marks) : Prop extends marks.Touches data schema changes where
  known : ∀ id, ∀ f ∈ marks.candidates id, f ∈ touchedNodes changes

def Marks.measure (schema : ResolvedSchema) (marks : Marks) : Nat :=
  members schema.shapes.length marks.candidates + Saturate.raised schema.shapes.length marks.isGlobal

theorem mem_touched {shape : CompiledShape} {c : ChangedQuad} {f : TermId}
    (h : f ∈ touched data shape c) : f = c.subject ∨ f = c.object := by
  simp only [touched, mem_append] at h
  rcases h with ((h | h) | h) | h
  all_goals
    split at h
    · first
      | exact .inl (mem_singleton.mp h)
      | exact .inr (mem_singleton.mp h)
    · cases h

theorem bounded_initialMarks :
    (initialMarks data schema changes).Bounded data schema changes where
  candidate id c hc f hf := (Ordered.mem_ofList _ _ _).mpr (mem_flatMap.mpr ⟨c, hc, hf⟩)
  whole id c hc h := any_eq_true.mpr ⟨c, hc, h⟩
  known id f hf := by
    obtain ⟨c, hc, hf⟩ := mem_flatMap.mp ((Ordered.mem_ofList _ _ _).mp hf)
    refine (Ordered.mem_ofList _ _ _).mpr (mem_flatMap.mpr ⟨c, hc, ?_⟩)
    rcases mem_touched hf with rfl | rfl
    · exact mem_cons_self
    · exact mem_cons_of_mem _ mem_cons_self

theorem progress_passCandidates {a b : ShapeId} (hb : b < schema.shapes.length) :
    Progress (Marks.Bounded data schema changes) (Marks.measure schema) (passCandidates a b) where
  keeps marks hI := by
    refine ⟨⟨fun id c hc f hf => mem_extendAt.mpr (.inl (hI.candidate id c hc f hf)), hI.whole⟩,
      fun id f hf => ?_⟩
    rcases mem_extendAt.mp hf with hold | ⟨-, hnew⟩
    · exact hI.known id f hold
    · exact hI.known a f hnew
  still marks _ hflag := by
    have hsame := extendAt_still hflag
    simp [passCandidates, hsame]
  grows marks _ hflag := by
    have hlt := members_extendAt hb hflag
    simp only [Marks.measure, passCandidates]
    omega

theorem progress_flag {condition : Marks → Bool} {id : ShapeId} (hid : id < schema.shapes.length)
    (hcondition : ∀ marks, condition marks = true → marks.isGlobal id = false) :
    Progress (Marks.Bounded data schema changes) (Marks.measure schema) fun marks =>
      if condition marks then
        ({ marks with isGlobal := (flagAt marks.isGlobal id).1 }, true)
      else (marks, false) where
  keeps marks hI := by
    split
    · refine ⟨⟨hI.candidate, fun id' c hc h => ?_⟩, hI.known⟩
      have hold := hI.whole id' c hc h
      by_cases heq : id' = id
      · subst heq
        exact Function.update_self ..
      · exact (Function.update_of_ne heq ..).trans hold
    · exact hI
  still marks _ hflag := by
    split at hflag
    · cases hflag
    · next hcond => rw [if_neg hcond]
  grows marks _ hflag := by
    split at hflag
    · next hcond =>
      have hlt := raised_flagAt hid (hcondition marks hcond)
      rw [if_pos hcond]
      simp only [Marks.measure]
      omega
    · cases hflag

theorem mem_selectMoves {m : Move Marks} :
    m ∈ selectMoves schema ↔
      (∃ a b, b ∈ (schema.shape a).propertyShapes ∧
        ((schema.shape a).kind = .node ∧ m = passCandidates a b ∨ m = passGlobal a b)) ∨
      ∃ id < schema.shapes.length, m = raiseParent schema id := by
  simp only [selectMoves, mem_flatMap, mem_append, mem_singleton, mem_range, mem_ite_nil_right]
  constructor
  · rintro ⟨a, ha, ⟨b, hb, hm⟩ | rfl⟩
    · exact .inl ⟨a, b, hb, hm⟩
    · exact .inr ⟨a, ha, rfl⟩
  · rintro (⟨a, b, hb, hm⟩ | ⟨id, hid, rfl⟩)
    · exact ⟨a, ResolvedSchema.lt_length_of_property hb, .inl ⟨b, hb, hm⟩⟩
    · exact ⟨id, hid, .inr rfl⟩

theorem progress_selectMoves : ∀ m ∈ selectMoves schema,
    Progress (Marks.Bounded data schema changes) (Marks.measure schema) m := by
  intro m hm
  rcases mem_selectMoves.mp hm with ⟨a, b, hb, ⟨-, rfl⟩ | rfl⟩ | ⟨id, hid, rfl⟩
  · exact progress_passCandidates (nested_of_property hb).lt_length
  · exact progress_flag (nested_of_property hb).lt_length fun marks h => by
      simpa using (Bool.and_eq_true_iff.mp h).2
  · exact progress_flag hid fun marks h => by simpa using (Bool.and_eq_true_iff.mp h).2

/-- A flag that a move leaves is set already if the move wants to set it. -/
theorem isGlobal_of_still {condition : Marks → Bool} {id : ShapeId} {marks : Marks}
    (h : (if condition marks && !marks.isGlobal id then
      ({ marks with isGlobal := (flagAt marks.isGlobal id).1 }, true) else (marks, false)).2 = false)
    (hcondition : condition marks = true) : marks.isGlobal id = true := by
  rw [hcondition, Bool.true_and] at h
  cases hflag : marks.isGlobal id with
  | true => rfl
  | false =>
    rw [hflag] at h
    cases h

theorem covers_finalMarks : (finalMarks data schema changes).Covers data schema changes := by
  have hbound : ∀ marks : Marks, marks.Bounded data schema changes → marks.measure schema ≤
      schema.shapes.length * (touchedNodes changes).size + schema.shapes.length := by
    intro marks hI
    have hmembers : members schema.shapes.length marks.candidates ≤
        schema.shapes.length * (touchedNodes changes).size := by
      refine members_le fun id => ?_
      rw [← ExtTreeSet.length_toList]
      exact Walk.length_le_size (Ordered.nodup_toList _)
        fun f hf => hI.known id f (ExtTreeSet.mem_toList.mp hf)
    have hraised := raised_le schema.shapes.length marks.isGlobal
    rw [Marks.measure]
    omega
  have hfuel : schema.shapes.length * (touchedNodes changes).size + schema.shapes.length <
      schema.shapes.length * (touchedNodes changes).size + schema.shapes.length + 1 +
        (initialMarks data schema changes).measure schema := by
    omega
  obtain ⟨hI, hstill⟩ := saturate_stable progress_selectMoves hbound (bounded_initialMarks) hfuel
  refine ⟨hI.toTouches, fun a b hkind hb f hf => ?_, fun a b hb ha => ?_, fun id hid h => ?_⟩
  · have hmove := hstill _ (mem_selectMoves.mpr (.inl ⟨a, b, hb, .inl ⟨hkind, rfl⟩⟩))
    exact mem_of_extendAt_still (congrArg Prod.snd hmove) hf
  · have hmove := hstill _ (mem_selectMoves.mpr (.inl ⟨a, b, hb, .inr rfl⟩))
    exact @isGlobal_of_still (fun marks => marks.isGlobal a) b _ (congrArg Prod.snd hmove) ha
  · have hmove := hstill _ (mem_selectMoves.mpr (.inr ⟨id, hid, rfl⟩))
    exact @isGlobal_of_still (fun marks => nestedParent schema marks.changed id) id _
      (congrArg Prod.snd hmove) h

/-! ## Shapes that have not changed -/

variable {marks : Marks}

abbrev ResolvedSchema.Reaches (schema : ResolvedSchema) : ShapeId → ShapeId → Prop :=
  Traverse.Reaches fun id => (schema.shape id).propertyShapes

/-- Neither the shape nor a property shape that its check evaluates has changed. -/
def Marks.Clean (schema : ResolvedSchema) (marks : Marks) (id : ShapeId) : Prop :=
  ∀ t, schema.Reaches id t → marks.changed t = false

theorem length_propertyShapes_le (id : ShapeId) :
    (schema.shape id).propertyShapes.length ≤
      (((List.range schema.shapes.length).flatMap fun a =>
        (schema.shape a).propertyShapes.map fun b => (a, b)).filter fun e => e.1 = id).length := by
  by_cases hid : id < schema.shapes.length
  · have hsub : (schema.shape id).propertyShapes.map (fun b => (id, b)) |>.Sublist
        ((range schema.shapes.length).flatMap fun a =>
          (schema.shape a).propertyShapes.map fun b => (a, b)) := by
      obtain ⟨before, after, hsplit⟩ := append_of_mem (mem_range.mpr hid)
      rw [hsplit, flatMap_append, flatMap_cons]
      exact (sublist_append_left _ _).trans (sublist_append_right _ _)
    have hfilter := (hsub.filter fun e => decide (e.1 = id)).length_le
    have hall : ((schema.shape id).propertyShapes.map fun b => (id, b)).filter
        (fun e => decide (e.1 = id)) = (schema.shape id).propertyShapes.map fun b => (id, b) :=
      filter_eq_self.mpr fun e he => by
        obtain ⟨b, -, rfl⟩ := mem_map.mp he
        exact decide_eq_true rfl
    rwa [hall, length_map] at hfilter
  · have hempty : schema.shape id = .empty :=
      not_not.mp (mt ResolvedSchema.lt_length_of_shape_ne hid)
    rw [hempty]
    exact Nat.zero_le _

theorem flatMap_range_shapes {β : Type} (f : CompiledShape → List β) :
    ((List.range schema.shapes.length).flatMap fun id => f (schema.shape id)) =
      schema.shapes.flatMap f := by
  have hmap : (range schema.shapes.length).map schema.shape = schema.shapes := by
    refine ext_getElem (by simp) fun i hi _ => ?_
    rw [length_map, length_range] at hi
    simp [ResolvedSchema.shape, getD_eq_getElem?_getD, hi]
  rw [← flatMap_map, hmap]

variable {id : ShapeId}

/-- A search that finds no change has seen all that is evaluated. -/
theorem clean_of_nestedChanged
    (h : nestedChanged schema marks.changed id = false) : marks.Clean schema id := by
  intro t ht
  refine Traverse.findTaken_eq_false length_propertyShapes_le (fun x hx => ?_) (fun x hx => ?_) ?_ h
    mem_cons_self ht
  · exact absurd hx ExtTreeSet.not_mem_empty
  · exact absurd hx ExtTreeSet.not_mem_empty
  · have hedges : (schema.shapes.flatMap CompiledShape.propertyShapes).length =
        ((range schema.shapes.length).flatMap fun a =>
          (schema.shape a).propertyShapes.map fun b => (a, b)).length := by
      rw [← flatMap_range_shapes]
      simp [length_flatMap]
    have hle := length_filter_le (fun e => decide (e.1 ∉ (∅ : ExtTreeSet ShapeId compare)))
      ((range schema.shapes.length).flatMap fun a =>
        (schema.shape a).propertyShapes.map fun b => (a, b))
    rw [length_singleton]
    omega

theorem Marks.Clean.isGlobal (h : marks.Clean schema id) :
    marks.isGlobal id = false :=
  (Bool.or_eq_false_iff.mp (h id .refl)).1

theorem Marks.Clean.not_mem (h : marks.Clean schema id) (f : TermId) :
    f ∉ marks.candidates id := by
  have hempty := (Bool.or_eq_false_iff.mp (h id .refl)).2
  rw [Bool.not_eq_false'] at hempty
  rw [ExtTreeSet.isEmpty_iff.mp hempty]
  exact ExtTreeSet.not_mem_empty

section

variable (h : marks.Covers data schema changes) (hid : marks.isGlobal id = false)
include h hid

theorem nestedParent_eq_false : nestedParent schema marks.changed id = false := by
  by_cases hlt : id < schema.shapes.length
  · by_contra hparent
    rw [h.raised id hlt (Bool.eq_true_of_not_eq_false hparent)] at hid
    cases hid
  · have hempty : schema.shape id = .empty :=
      not_not.mp (mt ResolvedSchema.lt_length_of_shape_ne hlt)
    rw [nestedParent, hempty]
    rfl

theorem Marks.Covers.clean_nested {s : ShapeId} {c : ResolvedConstraint}
    (hc : c ∈ (schema.shape id).constraints) (hs : s ∈ c.nested) : marks.Clean schema s := by
  have hparent := nestedParent_eq_false h hid
  rw [nestedParent, Bool.or_eq_false_iff, any_eq_false] at hparent
  refine clean_of_nestedChanged (Bool.eq_false_of_not_eq_true (hparent.1 s ?_))
  refine mem_flatMap.mpr ⟨c, hc, ?_⟩
  cases c with
  | qualifiedValueShape shape minCount maxCount isDisjoint siblings =>
    rcases mem_cons.mp hs with rfl | hs
    · exact mem_cons_self
    · refine mem_cons_of_mem _ ?_
      cases isDisjoint with
      | true => exact hs
      | false => cases hs
  | _ => exact hs

theorem Marks.Covers.clean_chain (hkind : (schema.shape id).kind = .property)
    (hproperties : (schema.shape id).propertyShapes ≠ []) : marks.Clean schema id := by
  have hparent := nestedParent_eq_false h hid
  rw [nestedParent, Bool.or_eq_false_iff] at hparent
  have hchain : ((schema.shape id).kind == .property &&
      !(schema.shape id).propertyShapes.isEmpty) = true := by
    simpa [hkind] using hproperties
  have hsecond := hparent.2
  rw [hchain, Bool.true_and] at hsecond
  exact clean_of_nestedChanged hsecond

end

theorem Marks.Clean.property {p : ShapeId} (h : marks.Clean schema id)
    (hp : p ∈ (schema.shape id).propertyShapes) : marks.Clean schema p := fun t ht =>
  h t ((Traverse.Reaches.step hp).trans ht)

theorem Marks.Clean.nested (h : marks.Covers data schema changes) {s : ShapeId}
    (hid : marks.Clean schema id) (hs : schema.Nested id s) : marks.Clean schema s := by
  rcases mem_append.mp hs with hs | hs
  · exact hid.property hs
  · obtain ⟨c, hc, hs⟩ := mem_flatMap.mp hs
    exact h.clean_nested hid.isGlobal hc hs

/-! ## Reads -/

variable {view view' : DataView} {options : ShaclValidationOptions} {loops : Bool}

theorem mem_collectPaths {paths : List ResolvedPath} {inverted : Bool} {path : ResolvedPath}
    (hpath : path ∈ paths) {r : TermId × Bool} (hr : r ∈ collectPath path inverted) :
    r ∈ collectPaths paths inverted := by
  induction paths with
  | nil => cases hpath
  | cons first paths ih =>
    rcases mem_cons.mp hpath with rfl | hpath
    · exact mem_append_left _ hr
    · exact mem_append_right _ (ih hpath)

/-- The walk of a path only reads the rows of its predicates, each in the collected direction. -/
theorem walk_congr (path : ResolvedPath) (inverted : Bool)
    (hforward : ∀ p, (p, false) ∈ collectPath path inverted →
      ∀ n, view.forward n p = view'.forward n p)
    (hinverse : ∀ p, (p, true) ∈ collectPath path inverted →
      ∀ n, view.inverse p n = view'.inverse p n) :
    path.walk view options inverted = path.walk view' options inverted := by
  induction path using ResolvedPath.induction generalizing inverted with
  | predicate p =>
    have hsame : predicateValues view options p inverted =
        predicateValues view' options p inverted := by
      funext n cap work
      cases inverted with
      | false => simp [predicateValues, hforward p mem_cons_self n]
      | true => simp only [predicateValues, if_true, hinverse p mem_cons_self n]
    simp [walk, hsame]
  | alternative paths ih | sequence paths ih =>
    have hall : walkAll view options paths inverted =
        walkAll view' options paths inverted := by
      rw [walkAll_eq_map, walkAll_eq_map]
      exact map_congr_left fun path hpath => ih path hpath inverted
        (fun p hp => hforward p (mem_collectPaths hpath hp))
        fun p hp => hinverse p (mem_collectPaths hpath hp)
    simp [walk, hall]
  | inverse path ih => simp [walk, ih (!inverted) hforward hinverse]
  | zeroOrMore path ih | oneOrMore path ih | zeroOrOne path ih =>
    simp [walk, ih inverted hforward hinverse]

/-- The relation of a path only depends on the triples of its predicates, whatever their
direction. -/
theorem rel_congr (path : ResolvedPath) (inverted : Bool)
    (h : ∀ r ∈ collectPath path inverted, ∀ s o, (r.1, o) ∈ view.scan s ↔ (r.1, o) ∈ view'.scan s) :
    path.Rel view loops = path.Rel view' loops := by
  induction path using ResolvedPath.induction generalizing inverted with
  | predicate p =>
    funext s o
    exact propext (h (p, inverted) mem_cons_self s o)
  | alternative paths ih | sequence paths ih =>
    have hall : rels view loops paths = rels view' loops paths := by
      rw [rels_eq_map, rels_eq_map]
      exact map_congr_left fun path hpath => ih path hpath inverted fun r hr =>
        h r (mem_collectPaths hpath hr)
    simp only [ResolvedPath.Rel, hall]
  | inverse path ih => simp only [ResolvedPath.Rel, ih (!inverted) h]
  | zeroOrMore path ih | oneOrMore path ih | zeroOrOne path ih =>
    simp only [ResolvedPath.Rel, ih inverted h]

theorem valueNodes_congr {path : ResolvedPath} {focus : TermId}
    (h : ∀ v, path.Walked view focus v ↔ path.Walked view' focus v) :
    path.valueNodes view focus = path.valueNodes view' focus := by
  refine ExtTreeSet.ext_mem fun v => ?_
  rw [ResolvedPath.mem_valueNodes, ResolvedPath.mem_valueNodes, h]

/-- No change is about a triple that a shape reads from a focus for its targets. -/
structure Untouched (data : ShaclData) (changes : List ChangedQuad) (shape : CompiledShape)
    (focus : TermId) : Prop where
  forward : ∀ c ∈ changes, c.predicate ∈ (analyze shape).forwardPredicates → c.subject ≠ focus
  inverse : ∀ c ∈ changes, c.predicate ∈ (analyze shape).inversePredicates → c.object ≠ focus
  outgoing : (analyze shape).readsAllPredicates = true → ∀ c ∈ changes, c.subject ≠ focus
  types : (analyze shape).readsRdfType = true → ∀ c ∈ changes, c.predicate = data.rdfType →
    c.subject ≠ focus

/-- No change is about a triple that a shape reads when it is evaluated on a focus. -/
structure Undisturbed (data : ShaclData) (changes : List ChangedQuad) (shape : CompiledShape)
    (focus : TermId) : Prop extends Untouched data changes shape focus where
  valueTypes : (analyze shape).readsRdfType = true → shape.path.isSome = true →
    ∀ c ∈ changes, c.predicate ≠ data.rdfType
  remote : (analyze shape).requiresGlobalWork = true → ∀ c ∈ changes,
    c.predicate ∉ (analyze shape).forwardPredicates ∧
      c.predicate ∉ (analyze shape).inversePredicates

variable {focus : TermId}

theorem untouched_of_covers (h : marks.Covers data schema changes)
    (hfocus : focus ∉ marks.candidates id) : Untouched data changes (schema.shape id) focus where
  forward c hc hp heq := by
    refine hfocus (h.candidate id c hc focus ?_)
    simp [touched, hp, heq]
  inverse c hc hp heq := by
    refine hfocus (h.candidate id c hc focus ?_)
    simp [touched, hp, heq]
  outgoing hall c hc heq := by
    refine hfocus (h.candidate id c hc focus ?_)
    simp [touched, hall, heq]
  types htype c hc hp heq := by
    refine hfocus (h.candidate id c hc focus ?_)
    simp [touched, htype, hp, heq]

theorem undisturbed_of_covers (h : marks.Covers data schema changes)
    (hid : marks.isGlobal id = false) (hfocus : focus ∉ marks.candidates id) :
    Undisturbed data changes (schema.shape id) focus := by
  have hnone : ∀ c ∈ changes, concerns data (schema.shape id) c = false := by
    intro c hc
    by_contra hconcerns
    rw [h.whole id c hc (Bool.eq_true_of_not_eq_false hconcerns)] at hid
    cases hid
  refine ⟨untouched_of_covers h hfocus, fun htype hpath c hc hp => ?_, fun hremote c hc => ?_⟩
  · have hconcerns := hnone c hc
    simp [concerns, htype, hpath, hp] at hconcerns
  have hconcerns := hnone c hc
  rw [concerns, Bool.or_eq_false_iff, hremote, Bool.true_or, Bool.and_true,
    Bool.not_eq_false', List.isEmpty_iff] at hconcerns
  constructor
  · intro hp
    simpa [touched, hp] using hconcerns.2
  · intro hp
    simpa [touched, hp] using hconcerns.2

/-! ## The same evaluation before and after -/

def EvalContext.delta (ctx : EvalContext) (changes : List ChangedQuad) : EvalContext :=
  { ctx with data := { ctx.data with view := ctx.data.view.delta changes } }

variable {shape : CompiledShape} {p : TermId}

theorem mem_forwardPredicates :
    p ∈ (analyze shape).forwardPredicates ↔
      (∃ t ∈ shape.targets, (p, false) ∈ t.reads) ∨
        (∃ path ∈ shape.path, (p, false) ∈ collectPath path false) ∨
          ∃ c ∈ shape.constraints, (p, false) ∈ c.reads := by
  simp [analyze]

theorem mem_inversePredicates :
    p ∈ (analyze shape).inversePredicates ↔
      (∃ t ∈ shape.targets, (p, true) ∈ t.reads) ∨
        (∃ path ∈ shape.path, (p, true) ∈ collectPath path false) ∨
          ∃ c ∈ shape.constraints, (p, true) ∈ c.reads := by
  simp [analyze]

theorem mem_predicates_of_path {path : ResolvedPath} (hpath : shape.path = some path)
    {inverted : Bool} (h : (p, inverted) ∈ collectPath path false) :
    if inverted then p ∈ (analyze shape).inversePredicates
    else p ∈ (analyze shape).forwardPredicates := by
  cases inverted with
  | false => exact mem_forwardPredicates.mpr (.inr (.inl ⟨path, hpath, h⟩))
  | true => exact mem_inversePredicates.mpr (.inr (.inl ⟨path, hpath, h⟩))

section Delta

variable {ctx : EvalContext} {C C' : ShapeId → TermId → Bool}

/-- The value nodes of a shape are the same. -/
theorem values_delta
    (h : Undisturbed ctx.data (effectiveChanges ctx.data.view changes) (ctx.schema.shape id) focus)
    (cap : Option Nat) : (ctx.delta changes).values id focus cap = ctx.values id focus cap := by
  have hwalk : ∀ path, (ctx.schema.shape id).path = some path →
      pathValues (ctx.data.view.delta changes) ctx.options path focus =
          pathValues ctx.data.view ctx.options path focus ∧
        path.valueNodes (ctx.data.view.delta changes) focus =
          path.valueNodes ctx.data.view focus := by
    intro path hpath
    -- a local path reads triples of the focus, any other path has no changed predicate
    by_cases hlocal : path.isLocal = true
    · cases path with
      | predicate p =>
        have hsame : (ctx.data.view.delta changes).forward focus p =
            ctx.data.view.forward focus p :=
          delta_forward fun c hc hp => h.forward c hc (hp ▸ mem_predicates_of_path hpath mem_cons_self)
        refine ⟨?_, valueNodes_congr fun v => ?_⟩
        · funext cap work
          simp [pathValues, ResolvedPath.walk, Walk.guarded, predicateValues, hsame]
        · have hmem := congrArg (v ∈ ·) hsame
          simp only [DataView.mem_forward] at hmem
          exact iff_of_eq hmem
      | inverse inner =>
        cases inner with
        | predicate p =>
          have hsame : (ctx.data.view.delta changes).inverse p focus =
              ctx.data.view.inverse p focus :=
            delta_inverse fun c hc hp => h.inverse c hc (hp ▸ mem_predicates_of_path hpath mem_cons_self)
          refine ⟨?_, valueNodes_congr fun v => ?_⟩
          · funext cap work
            simp [pathValues, ResolvedPath.walk, Walk.guarded, predicateValues, hsame]
          · have hmem := congrArg (v ∈ ·) hsame
            simp only [DataView.mem_inverse] at hmem
            exact iff_of_eq hmem
        | _ => cases hlocal
      | _ => cases hlocal
    · have hremote := h.remote (by simp [analyze, hpath, hlocal])
      have hnone : ∀ r ∈ collectPath path false,
          ∀ c ∈ effectiveChanges ctx.data.view changes, c.predicate ≠ r.1 := by
        intro r hr c hc heq
        have hmem := mem_predicates_of_path hpath hr
        split at hmem
        · exact (hremote c hc).2 (heq ▸ hmem)
        · exact (hremote c hc).1 (heq ▸ hmem)
      refine ⟨?_, valueNodes_congr fun v => ?_⟩
      · refine congrFun (walk_congr path false (fun p hp n => ?_) fun p hp n => ?_) focus
        · exact delta_forward fun c hc heq => absurd heq (hnone _ hp c hc)
        · exact delta_inverse fun c hc heq => absurd heq (hnone _ hp c hc)
      · have hrel : path.Walked (ctx.data.view.delta changes) = path.Walked ctx.data.view := by
          refine rel_congr path false fun r hr s o => mem_delta_scan fun c hc heq => ?_
          exact hnone r hr c hc (congrArg (fun t => t.2.1) heq)
        rw [hrel]
  rw [EvalContext.values, EvalContext.values]
  cases hpath : (ctx.schema.shape id).path with
  | none =>
    have hpath' : ((ctx.delta changes).schema.shape id).path = none := hpath
    rw [hpath']
  | some path =>
    have hpath' : ((ctx.delta changes).schema.shape id).path = some path := hpath
    obtain ⟨hvalues, hnodes⟩ := hwalk path hpath
    rw [hpath']
    show Stateful.outcome (pathValues (ctx.data.view.delta changes) ctx.options path focus cap)
        (path.valueNodes (ctx.data.view.delta changes) focus) = _
    rw [hvalues, hnodes]

theorem tripleExists_delta {s p o : TermId}
    (h : ∀ c ∈ effectiveChanges ctx.data.view changes, c.triple ≠ (s, p, o)) :
    tripleExists (ctx.delta changes) s p o = tripleExists ctx s p o :=
  decide_eq_decide.mpr (mem_delta_scan h)

theorem failing_congr {check check' : TermId → Bool} {values : NodeSet}
    (h : ∀ v ∈ values, check v = check' v) : failing check values = failing check' values := by
  rw [failing, failing]
  refine congrArg (map Violation.ofValue) (filter_congr fun v hv => ?_)
  rw [h v (ExtTreeSet.mem_toList.mp hv)]

theorem mem_values_of_no_path {v : TermId} (hpath : (ctx.schema.shape id).path.isSome = false)
    (hv : v ∈ ctx.values id focus none) : v = focus := by
  have hnone : (ctx.schema.shape id).path = none := by simpa using hpath
  simp only [EvalContext.values, hnone] at hv
  exact Ordered.mem_insert_empty.mp hv

theorem hasValueVerdict_delta {expected : TermId}
    (h : Undisturbed ctx.data (effectiveChanges ctx.data.view changes) (ctx.schema.shape id) focus) :
    hasValueVerdict (ctx.delta changes) id focus expected =
      hasValueVerdict ctx id focus expected := by
  have hvalues := values_delta h none
  have hschema : (ctx.delta changes).schema = ctx.schema := rfl
  rw [hasValueVerdict, hasValueVerdict, hvalues, hschema]
  cases hpath : (ctx.schema.shape id).path with
  | none => rfl
  | some path =>
    cases path with
    | predicate p =>
      refine tripleExists_delta fun c hc heq => ?_
      simp only [ChangedQuad.triple, Prod.mk.injEq] at heq
      exact h.forward c hc (heq.2.1 ▸ mem_predicates_of_path hpath mem_cons_self) heq.1
    | inverse inner =>
      cases inner with
      | predicate p =>
        refine tripleExists_delta fun c hc heq => ?_
        simp only [ChangedQuad.triple, Prod.mk.injEq] at heq
        exact h.inverse c hc (heq.2.1 ▸ mem_predicates_of_path hpath mem_cons_self) heq.2.2
      | _ => rfl
    | _ => rfl

theorem repeatedLanguages_delta (values : List TermId) (seen reported : List String) :
    repeatedLanguages (ctx.delta changes) values seen reported =
      repeatedLanguages ctx values seen reported := by
  induction values generalizing seen reported with
  | nil => rfl
  | cons v vs ih =>
    have hmeta : (ctx.delta changes).data.termMeta = ctx.data.termMeta := rfl
    simp [repeatedLanguages, ih, hmeta]

section

variable (h : Undisturbed ctx.data (effectiveChanges ctx.data.view changes) (ctx.schema.shape id) focus)
include h

theorem constraintViolations_delta {c : ResolvedConstraint}
    (hc : c ∈ (ctx.schema.shape id).constraints) (hC : ∀ s ∈ c.nested, C' s = C s) :
    constraintViolations (ctx.delta changes) C' id focus c = constraintViolations ctx C id focus c := by
  have hvalues := values_delta h
  have hfocus : ∀ p, (p, false) ∈ c.reads →
      focusValues (ctx.delta changes) focus p = focusValues ctx focus p := by
    intro p hp
    have hsame : (ctx.delta changes).data.view.forward focus p = ctx.data.view.forward focus p :=
      delta_forward fun d hd heq => h.forward d hd
        (mem_forwardPredicates.mpr (.inr (.inr ⟨c, hc, heq ▸ hp⟩)))
    rw [focusValues, focusValues, hsame]
  -- the verdicts on the nested shapes first, then the data
  rw [constraintViolations_congr (ctx.delta changes) hC]
  cases c with
  | «class» cls =>
    have htype : (analyze (ctx.schema.shape id)).readsRdfType = true :=
      Bool.or_eq_true_iff.mpr (.inr (any_eq_true.mpr ⟨_, hc, rfl⟩))
    simp only [constraintViolations, valueViolations, hvalues]
    refine failing_congr fun v hv => tripleExists_delta fun d hd heq => ?_
    simp only [ChangedQuad.triple, Prod.mk.injEq] at heq
    cases hpath : (ctx.schema.shape id).path.isSome with
    | true => exact h.valueTypes htype hpath d hd heq.2.1
    | false => exact h.types htype d hd heq.2.1 (heq.1.trans (mem_values_of_no_path hpath hv))
  | hasValue expected =>
    rw [constraintViolations, constraintViolations, hasValueVerdict_delta h]
  | closed ignored =>
    have hscan : (ctx.delta changes).data.view.scan focus = ctx.data.view.scan focus :=
      delta_scan (h.outgoing (any_eq_true.mpr ⟨_, hc, rfl⟩))
    simp only [constraintViolations, closedViolations, hscan]
    rfl
  | equals p | disjoint p =>
    simp [constraintViolations, valueViolations, hvalues, hfocus p mem_cons_self]
  | lessThan p | lessOrEqual p =>
    simp only [constraintViolations, valueViolations, hvalues, hfocus p mem_cons_self]
    rfl
  | qualifiedValueShape shape minCount maxCount isDisjoint siblings =>
    have hcount : qualifiedCount (ctx.delta changes) C id focus shape isDisjoint siblings =
        qualifiedCount ctx C id focus shape isDisjoint siblings := by
      rw [qualifiedCount, qualifiedCount, hvalues]
    rw [constraintViolations, constraintViolations, hcount]
  | minCount minimum | maxCount maximum | node shape | not shape | and shapes | or shapes
  | xone shapes => rw [constraintViolations, constraintViolations, hvalues]
  | uniqueLang required =>
    simp [constraintViolations, valueViolations, hvalues, repeatedLanguages_delta]
  | _ =>
    simp only [constraintViolations, hvalues]
    rfl

theorem propertyPairs_delta :
    propertyPairs (ctx.delta changes) id focus = propertyPairs ctx id focus := by
  have hschema : (ctx.delta changes).schema = ctx.schema := rfl
  have hnodes : propertyNodes (ctx.delta changes) id focus = propertyNodes ctx id focus := by
    rw [propertyNodes, propertyNodes, hschema, values_delta h]
  rw [propertyPairs, propertyPairs, hnodes, hschema]

theorem constraints_delta
    (hC : ∀ c ∈ (ctx.schema.shape id).constraints, ∀ s ∈ c.nested, C' s = C s) :
    constraintsVerdict (ctx.delta changes) C' id focus = constraintsVerdict ctx C id focus ∧
      (ctx.schema.shape id).constraints.flatMap (constraintResults (ctx.delta changes) C' id focus) =
        (ctx.schema.shape id).constraints.flatMap (constraintResults ctx C id focus) := by
  have hsame : ∀ c ∈ (ctx.schema.shape id).constraints,
      constraintViolations (ctx.delta changes) C' id focus c =
        constraintViolations ctx C id focus c :=
    fun c hc => constraintViolations_delta h hc (hC c hc)
  constructor
  · rw [constraintsVerdict, constraintsVerdict, Bool.eq_iff_iff, all_eq_true, all_eq_true]
    exact forall₂_congr fun c hc => by rw [hsame c hc]
  · rw [flatMap_def, flatMap_def]
    refine congrArg flatten (map_congr_left fun c hc => ?_)
    rw [constraintResults, constraintResults, hsame c hc]
    rfl

end

variable (hmarks : marks.Covers ctx.data ctx.schema (effectiveChanges ctx.data.view changes))

include hmarks

theorem Marks.Clean.undisturbed (h : marks.Clean ctx.schema id) (focus : TermId) :
    Undisturbed ctx.data (effectiveChanges ctx.data.view changes) (ctx.schema.shape id) focus :=
  undisturbed_of_covers hmarks h.isGlobal (h.not_mem focus)

variable (hschema : ctx.schema.NonRecursive)
  (hC : Verdicts ctx C)
  (hC' : Verdicts (ctx.delta changes) C')
include hschema hC hC'

theorem Marks.Clean.verdict (h : marks.Clean ctx.schema id) : C' id = C id := by
  obtain ⟨rank, hrank, -⟩ := hschema.exists_rank
  -- along the ranks, because the verdicts on the nested shapes come first
  induction hr : rank id using Nat.strong_induction_on generalizing id with
  | h r ih =>
    subst hr
    have hnested : ∀ s, ctx.schema.Nested id s → C' s = C s := fun s hs =>
      ih (rank s) (hrank id s hs) (h.nested hmarks hs) rfl
    funext focus
    have hundisturbed := h.undisturbed hmarks focus
    obtain ⟨hconstraints, -⟩ := constraints_delta hundisturbed fun c hc s hs =>
      hnested s (mem_append_right _ (mem_flatMap.mpr ⟨c, hc, hs⟩))
    have hproperties : ((propertyPairs ctx id focus).all fun pair => C' pair.2 pair.1) =
        (propertyPairs ctx id focus).all fun pair => C pair.2 pair.1 := by
      rw [Bool.eq_iff_iff, all_eq_true, all_eq_true]
      refine forall₂_congr fun pair hpair => ?_
      obtain ⟨v, -, hmem⟩ := mem_flatMap.mp hpair
      obtain ⟨property, hproperty, rfl⟩ := mem_map.mp hmem
      rw [hnested property (nested_of_property hproperty)]
    rw [hC' id focus, hC id focus, shapeVerdict, shapeVerdict, hconstraints,
      propertyPairs_delta hundisturbed, hproperties]
    rfl

/-- What a shape reports itself is the same away from its candidates. -/
theorem ownResults_delta (hid : marks.isGlobal id = false) (hfocus : focus ∉ marks.candidates id) :
    (ctx.schema.shape id).constraints.flatMap (constraintResults (ctx.delta changes) C' id focus) =
      (ctx.schema.shape id).constraints.flatMap (constraintResults ctx C id focus) := by
  refine (constraints_delta (undisturbed_of_covers hmarks hid hfocus) fun c hc s hs => ?_).2
  exact (hmarks.clean_nested hid hc hs).verdict hmarks hschema hC hC'

end Delta

end Craqle
