import Craqle.Crate.Incremental
import Craqle.Replication.Restore

/-! # Crates over runs of accepted change sets

The rules are in force for a graph whose metadata descriptor and root name one RO-Crate version
(`profileFromView`). A local write is refused unless its change set passes them
(`validateChangeSet`).

A graph that satisfied the rules while they were in force satisfies them after every accepted
write. The write that puts them in force is the exception: its checks look only at what the change
set touches, and whatever else the graph has or lacks is never looked at. A graph is a valid crate
whenever the rules are in force if that write covers every rule (`accepted_crates_valid`).
-/

namespace Craqle

open Fallible GraphState List MaterializedQuadChange RuleContext RuleId

/-! ## `validate_change_set` -/

inductive RoCrateVersion where
  | v1_1
  | v1_2
  | v1_3
  deriving DecidableEq

namespace RoCrateVersion

def specificationUrl : RoCrateVersion → Text
  | .v1_1 => "https://w3id.org/ro/crate/1.1".toList
  | .v1_2 => "https://w3id.org/ro/crate/1.2".toList
  | .v1_3 => "https://w3id.org/ro/crate/1.3".toList

def rulePlan : RoCrateVersion → List RuleId
  | .v1_1 | .v1_2 | .v1_3 => RuleId.all

end RoCrateVersion

/-- The triples that name a version, of the descriptor first and then of the root. -/
def profileMarkers (root : EncodedTerm) : List (Triple × RoCrateVersion) :=
  [metadataDescriptor, root].flatMap fun subject =>
    [RoCrateVersion.v1_1, .v1_2, .v1_3].map fun version =>
      (⟨subject, dctermsConformsTo, .fromNamedNode version.specificationUrl⟩, version)

def selectProfile (named : Triple → Bool) :
    List (Triple × RoCrateVersion) → Option RoCrateVersion → Option RoCrateVersion
  | [], selected => selected
  | (marker, version) :: markers, selected =>
    if named marker then
      if selected.any (· ≠ version) then none
      else selectProfile named markers (some version)
    else selectProfile named markers selected

def profileFromView (cx : RuleContext) : Option RoCrateVersion :=
  selectProfile cx.tripleExists (profileMarkers cx.root) none

/-- The whole graph after the changes. -/
def postStateAfter (cx : RuleContext) : GraphSnapshot :=
  ⟨cx.graph, cx.view.scan ⟨none, none, none⟩⟩

/-- The violation of a rule, from the changes or from the whole result. -/
def ruleViolation (cx : RuleContext) (rule : RuleId) : Option CrateViolation :=
  match rule.checkCandidate cx with
  | .pass => none
  | .violation v => some v
  | .needSnapshot =>
    match rule.checkPostState (postStateAfter cx) with
    | .error v => some v
    | .ok () => none

/-- The rules in force: those in the plan of the version that the result names. -/
def activeRules (rules : List RuleId) (cx : RuleContext) : List RuleId :=
  match profileFromView cx with
  | none => []
  | some version => rules.filter fun rule => decide (rule ∈ version.rulePlan)

/-- Run all rules against the state the change set would produce, collecting violations. -/
def validateChangeSet (rules : List RuleId) (cx : RuleContext) :
    Except (List CrateViolation) Unit :=
  match (activeRules rules cx).filterMap (ruleViolation cx) with
  | [] => .ok ()
  | violations => .error violations

def GraphState.triples (s : GraphState) : List Triple := s.quads.rows.toList.map Prod.fst

def structuralRules (graph : GraphId) (s : GraphState) (changes : List MaterializedQuadChange) :
    Bool :=
  isOk (validateChangeSet RuleId.all (RuleContext.new graph s.triples changes))

def GraphState.profile (graph : GraphId) (s : GraphState) : Option RoCrateVersion :=
  profileFromView (RuleContext.new graph s.triples [])

/-! ## What an accepted change set says -/

section Accepted

variable {cx : RuleContext}

/-- A set of triples names a version, on the metadata descriptor or on the root, and no other. -/
def SelectedVersion (graph : GraphId) (T : Set Triple) (version : RoCrateVersion) : Prop :=
  (∃ marker ∈ profileMarkers (graphRoot graph), marker.2 = version ∧ marker.1 ∈ T) ∧
    ∀ marker ∈ profileMarkers (graphRoot graph), marker.1 ∈ T → marker.2 = version

/-- The loop over the markers finds the version that all of them name. -/
theorem selectProfile_eq_some_iff {named : Triple → Bool} {version : RoCrateVersion}
    {markers : List (Triple × RoCrateVersion)} {selected : Option RoCrateVersion} :
    selectProfile named markers selected = some version ↔
      (selected = some version ∨
        (selected = none ∧ ∃ marker ∈ markers, marker.2 = version ∧ named marker.1 = true)) ∧
      ∀ marker ∈ markers, named marker.1 = true → marker.2 = version := by
  induction markers generalizing selected with
  | nil => simp [selectProfile]
  | cons marker markers ih =>
    obtain ⟨triple, other⟩ := marker
    unfold selectProfile
    by_cases hnamed : named triple = true
    · rw [if_pos hnamed]
      have hhead : (∀ marker ∈ (triple, other) :: markers, named marker.1 = true →
          marker.2 = version) ↔
            other = version ∧ ∀ marker ∈ markers, named marker.1 = true → marker.2 = version := by
        rw [forall_mem_cons]
        exact and_congr_left fun _ => ⟨fun h => h hnamed, fun h _ => h⟩
      rw [hhead]
      cases selected with
      | none =>
        simp only [Option.any_none, Bool.false_eq_true, if_false]
        rw [ih]
        constructor
        · rintro ⟨hother | ⟨hnone, _⟩, hrest⟩
          · cases hother
            exact ⟨.inr ⟨trivial, _, mem_cons_self, rfl, hnamed⟩, rfl, hrest⟩
          · cases hnone
        · rintro ⟨_, rfl, hrest⟩
          exact ⟨.inl rfl, hrest⟩
      | some current =>
        simp only [Option.any_some, decide_eq_true_eq]
        split
        · -- two versions are none
          rename_i hne
          constructor
          · intro hnone
            cases hnone
          · rintro ⟨hcurrent | ⟨hnone, _⟩, hother, _⟩
            · exact absurd ((Option.some.inj hcurrent).trans hother.symm) hne
            · cases hnone
        · rename_i heq
          obtain rfl : current = other := not_not.mp heq
          rw [ih]
          constructor
          · rintro ⟨hother | ⟨hnone, _⟩, hrest⟩
            · exact ⟨.inl hother, Option.some.inj hother, hrest⟩
            · cases hnone
          · rintro ⟨_, rfl, hrest⟩
            exact ⟨.inl rfl, hrest⟩
    · rw [if_neg hnamed, ih]
      simp [hnamed]

theorem profileFromView_eq_some_iff (h : cx.Sound) {version : RoCrateVersion} :
    profileFromView cx = some version ↔ SelectedVersion cx.graph cx.after version := by
  unfold profileFromView
  rw [selectProfile_eq_some_iff]
  simp only [RuleContext.tripleExists_iff h]
  simp [SelectedVersion, RuleContext.root]

theorem validateChangeSet_eq_ok {rules : List RuleId} :
    validateChangeSet rules cx = .ok () ↔
      ∀ rule ∈ activeRules rules cx, ruleViolation cx rule = none := by
  unfold validateChangeSet
  rw [← filterMap_eq_nil_iff]
  split
  · rename_i hnil
    simp [hnil]
  · rename_i hne
    simp only [reduceCtorEq, false_iff]
    exact hne

theorem ruleViolation_of_accepted (h : validateChangeSet all cx = .ok ())
    (hprofile : profileFromView cx ≠ none) (rule : RuleId) : ruleViolation cx rule = none := by
  obtain ⟨version, hversion⟩ := Option.ne_none_iff_exists'.mp hprofile
  refine validateChangeSet_eq_ok.mp h rule ?_
  unfold activeRules
  rw [hversion]
  have hplan : rule ∈ version.rulePlan := by cases version <;> exact mem_all rule
  exact List.mem_filter.mpr ⟨mem_all rule, by simpa using hplan⟩

variable {graph : GraphId} {base : List Triple} {delta : List MaterializedQuadChange}

theorem mem_postStateAfter (h : cx.Sound) (q : Triple) :
    q ∈ (postStateAfter cx).triples ↔ q ∈ cx.after := by
  show q ∈ cx.view.scan ⟨none, none, none⟩ ↔ _
  rw [DeltaReadView.mem_scan h.index]
  simp [QuadPattern.matches, RuleContext.after]

/-- **What acceptance says**: a covered rule that the checks let pass holds after the changes. -/
theorem holds_of_ruleViolation_eq_none (hbase : base.Nodup) {rule : RuleId}
    (hcovered : rule.Covered graph base (delta.filterMap (·.touched graph)))
    (h : ruleViolation (new graph base delta) rule = none) :
    rule.Holds graph (new graph base delta).after := by
  have hsound := new_sound hbase graph delta
  have hright := checkCandidate_right hbase hcovered
  unfold ruleViolation at h
  cases hcheck : rule.checkCandidate (new graph base delta) with
  | pass =>
    rw [hcheck] at hright
    exact hright
  | violation v =>
    rw [hcheck] at h
    cases h
  | needSnapshot =>
    rw [hcheck] at h
    simp only at h
    split at h
    · cases h
    rename_i hpost
    have hnodup : (postStateAfter (new graph base delta)).triples.Nodup :=
      DeltaReadView.nodup_scan hsound.index hsound.base
    have hholds := (checkPostState_iff hnodup rule).mp hpost
    have hset : {q | q ∈ (postStateAfter (new graph base delta)).triples} =
        (new graph base delta).after :=
      Set.ext (mem_postStateAfter hsound)
    rw [hset] at hholds
    exact hholds

end Accepted

/-! ## What a committed list leaves

A commit writes the canonical form of a change list, in which a delete of a literal alias follows
the delete of the literal. The store resolves the alias and deletes the literal twice, and the
overlay of the checks deletes the alias, which is never stored. -/

section Canonical

variable {ox : Oxrdf} {escape : Char → Text}

def CanonicalList (ox : Oxrdf) (graph : GraphId) (changes : List MaterializedQuadChange) : Prop :=
  (∀ change ∈ changes, change.graph = graph) ∧ ∃ raw, canonicalChanges ox raw = .ok changes

/-- A set of quads is what a predicate says is live, and each is its own canonical form. -/
def Mirrors (ox : Oxrdf) (live : Triple → Bool) (T : Set Triple) : Prop :=
  (∀ q, q ∈ T ↔ live q = true) ∧ ∀ q ∈ T, resolveQuad ox q = .ok q

theorem sequentialLive_append (live : Triple → Bool) (changes more : List MaterializedQuadChange) :
    sequentialLive ox live (changes ++ more) =
      sequentialLive ox (sequentialLive ox live changes) more :=
  foldl_append

theorem afterChanges_append (graph : GraphId) (T : Set Triple)
    (changes more : List MaterializedQuadChange) :
    afterChanges graph T (changes ++ more) =
      afterChanges graph (afterChanges graph T changes) more := by
  unfold afterChanges applyTouched
  rw [List.filterMap_append, List.foldl_append]

variable {live : Triple → Bool} {T : Set Triple} {graph : GraphId}

theorem mem_afterChanges_singleton {change : MaterializedQuadChange} (hgraph : change.graph = graph)
    (q : Triple) :
    q ∈ afterChanges graph T [change] ↔
      if change.quad = q then change.isInsert = true else q ∈ T := by
  have hlist : [change].filterMap (·.touched graph) = [(change.isInsert, change.quad)] := by
    subst hgraph
    cases change with
    | insert g terms | delete g terms =>
      simp [MaterializedQuadChange.touched, MaterializedQuadChange.graph,
        isInsert, quad]
  unfold afterChanges
  rw [hlist]
  show q ∈ (if change.isInsert then insert change.quad T else T \ {change.quad}) ↔ _
  by_cases heq : change.quad = q
  · cases hinsert : change.isInsert with
    | true | false => simp [heq]
  · cases hinsert : change.isInsert with
    | true | false => simp [heq, Ne.symm heq]

/-- A change of a canonical quad does the same in the store and in the overlay. -/
theorem Mirrors.change (h : Mirrors ox live T) {change : MaterializedQuadChange}
    (hgraph : change.graph = graph) (hquad : resolveQuad ox change.quad = .ok change.quad) :
    Mirrors ox (sequentialLive ox live [change]) (afterChanges graph T [change]) := by
  refine ⟨fun q => ?_, fun q hq => ?_⟩
  · rw [mem_afterChanges_singleton hgraph]
    show _ ↔ (if change.On ox q then change.isInsert else live q) = true
    simp only [on_iff_of_canonical rfl hquad]
    split
    · rfl
    · exact h.1 q
  · rw [mem_afterChanges_singleton hgraph] at hq
    split at hq
    · rename_i heq
      exact heq ▸ hquad
    · exact h.2 q hq

theorem Mirrors.deleteAlias (h : Mirrors ox live T) {terms quad : Triple}
    (hquad : resolveQuad ox terms = .ok quad) (hne : quad ≠ terms) (hdead : live quad = false) :
    Mirrors ox (sequentialLive ox live [.delete graph terms])
      (afterChanges graph T [.delete graph terms]) := by
  -- an alias is not its own canonical form, so it is never stored
  have hterms : terms ∉ T := by
    intro hmem
    exact hne (Except.ok.inj (hquad.symm.trans (h.2 terms hmem)))
  have hafter : ∀ q, q ∈ afterChanges graph T [.delete graph terms] ↔ q ∈ T := by
    intro q
    have hgraph : (delete graph terms).graph = graph := rfl
    rw [mem_afterChanges_singleton hgraph]
    split
    · rename_i heq
      obtain rfl : terms = q := heq
      exact ⟨fun hins => Bool.noConfusion hins, fun hmem => absurd hmem hterms⟩
    · rfl
  refine ⟨fun q => ?_, fun q hq => h.2 q ((hafter q).mp hq)⟩
  rw [hafter, h.1]
  show live q = true ↔ (if (delete graph terms).On ox q then false
    else live q) = true
  split
  · rename_i hon
    cases hquad.symm.trans hon
    rw [hdead]
  · rfl

/-- One change, in the form that it is written in. -/
theorem Mirrors.canonicalChange (hox : ox.PrintsNTriples escape) (h : Mirrors ox live T)
    {change : MaterializedQuadChange} {out : List MaterializedQuadChange}
    (hout : canonicalChange ox change = .ok out) (hgraph : ∀ c ∈ out, c.graph = graph) :
    Mirrors ox (sequentialLive ox live out) (afterChanges graph T out) := by
  obtain ⟨quad, hquad, rfl⟩ := map_eq_ok.mp hout
  have hidem : resolveQuad ox quad = .ok quad := resolveQuad_idem hox hquad
  split at hgraph
  · rename_i heq
    rw [if_pos heq]
    exact h.change (hgraph change (by simp)) (heq ▸ hidem)
  rename_i hne
  rw [if_neg hne]
  cases change with
  | insert g terms =>
    obtain rfl : g = graph := hgraph (.insert g quad) (by simp)
    exact h.change rfl hidem
  | delete g terms =>
    obtain rfl : g = graph := hgraph (.delete g quad) (by simp)
    have hfirst : Mirrors ox (sequentialLive ox live [.delete g quad])
        (afterChanges g T [.delete g quad]) := h.change rfl hidem
    have hdead : sequentialLive ox live [.delete g quad] quad = false := by
      show (if (delete g quad).On ox quad then false else live quad) =
        false
      exact if_pos hidem
    have hsplit : [delete g quad, .delete g terms] =
        [.delete g quad] ++ [.delete g terms] := rfl
    show Mirrors ox (sequentialLive ox live [.delete g quad, .delete g terms])
      (afterChanges g T [.delete g quad, .delete g terms])
    rw [hsplit, sequentialLive_append, afterChanges_append]
    exact hfirst.deleteAlias hquad hne hdead

/-- **The overlay is what the store does**, for a list in the form that it is written in. -/
theorem Mirrors.canonicalList (hox : ox.PrintsNTriples escape) (h : Mirrors ox live T)
    {changes : List MaterializedQuadChange} (hchanges : CanonicalList ox graph changes) :
    Mirrors ox (sequentialLive ox live changes) (afterChanges graph T changes) := by
  obtain ⟨hgraph, raw, hraw⟩ := hchanges
  have hkept : (∀ c ∈ changes, c.graph = graph) →
      Mirrors ox (sequentialLive ox live changes) (afterChanges graph T changes) := by
    refine foldlM_preserves
      (P := fun done => (∀ c ∈ done, c.graph = graph) →
        Mirrors ox (sequentialLive ox live done) (afterChanges graph T done))
      (fun change _ done next ih hnext hgraph => ?_) hraw (fun _ => h)
    obtain ⟨out, hout, rfl⟩ := map_eq_ok.mp hnext
    rw [sequentialLive_append, afterChanges_append]
    have hdone := ih fun c hc => hgraph c (mem_append_left _ hc)
    exact hdone.canonicalChange hox hout fun c hc => hgraph c (mem_append_right _ hc)
  exact hkept hgraph

end Canonical

/-! ## Runs of accepted writes -/

/-- Where a write goes: staged here under an actor's counter, or published and applied as the record
that it became. -/
inductive WritePath where
  | unsynced (actor : ActorId)
  | published (actor : ActorId) (irokle : IrokleAnswers)

structure CrateWrite where
  changes : List MaterializedQuadChange
  hints : Bool
  path : WritePath

def CrateWrite.run (ox : Oxrdf) (graph : GraphId) (s : GraphState) (w : CrateWrite) :
    Except UpdateError GraphState :=
  match canonicalChanges ox w.changes with
  | .error p => .error (.panicked p)
  | .ok changes =>
    if changes.any fun change => decide (change.graph ≠ graph) then .error .refused
    else
      let admits := structuralRules graph
      match w.path with
      | .unsynced actor => (commitLocal ox admits actor graph w.hints s changes).map Prod.fst
      | .published actor irokle =>
        (commitSync ox admits actor graph w.hints irokle s changes).map Prod.fst

def WritePath.Documented : WritePath → Prop
  | .unsynced _ => True
  | .published _ irokle => irokle.Documented

/-- The accepted writes of one graph that starts empty. -/
def crateRuns (ox : Oxrdf) (graph : GraphId) : Transition.System GraphState CrateWrite where
  init s := s.quads = QuadTable.empty
  step s w s' := w.path.Documented ∧ w.run ox graph s = .ok s'

/-- The rules were in force before the changes, or are not in force after them, or each held before
or is touched. -/
def RulesCovered (graph : GraphId) (s : GraphState) (changes : List MaterializedQuadChange) :
    Prop :=
  (∃ version, SelectedVersion graph {q | q ∈ s.triples} version) ∨
    (¬ ∃ version, SelectedVersion graph (afterChanges graph {q | q ∈ s.triples} changes) version) ∨
    ∀ rule : RuleId, rule.Covered graph s.triples (changes.filterMap (·.touched graph))

/-- A write covers the rules, and its deletes take every dot of their quads. -/
def CrateWrite.Covers (ox : Oxrdf) (graph : GraphId) (s : GraphState) (w : CrateWrite) : Prop :=
  ∀ changes, canonicalChanges ox w.changes = .ok changes →
    RulesCovered graph s changes ∧
      match w.path with
      | .unsynced _ => True
      | .published _ irokle => ∀ q, lastChange ox changes q = some false →
          (∀ d ∈ s.quads.dots q, irokle.record.observedClock.contains d = true) ∧
            ¬ ∃ change ∈ changes, change.isInsert = true ∧ change.On ox q

/-- What runs of covering writes keep: canonical rows, whose dots the clock has, and the rules when
they are in force. -/
structure CrateKept (ox : Oxrdf) (graph : GraphId) (s : GraphState) : Prop where
  keys : s.CanonicalKeys ox
  seen : ∀ q, ∀ d ∈ s.quads.dots q, s.clock.contains d = true
  valid : (∃ version, SelectedVersion graph {q | s.quads.Live q} version) →
    ∀ rule : RuleId, rule.Holds graph {q | s.quads.Live q}

theorem mem_triples {s : GraphState} {q : Triple} : q ∈ s.triples ↔ s.quads.Live q := by
  unfold triples QuadTable.Live
  rw [Std.ExtTreeMap.map_fst_toList_eq_keys, Std.ExtTreeMap.mem_keys,
    Std.ExtTreeMap.mem_iff_isSome_getElem?, QuadTable.rows_eq]
  split <;> simp_all

theorem setOf_mem_triples (s : GraphState) : {q | q ∈ s.triples} = {q | s.quads.Live q} :=
  Set.ext fun _ => mem_triples

theorem nodup_triples (s : GraphState) : s.triples.Nodup := Ordered.nodup_keys_toList s.quads.rows

section Runs

variable {ox : Oxrdf} {escape : Char → Text} {graph : GraphId} {s s' : GraphState}
  {changes : List MaterializedQuadChange}

/-- The dots after a run of changes are old ones or the run's own. -/
theorem mem_dots_of_applyOps {dot : Dot} {witnessed : VectorClock} {t t' : QuadTable}
    (h : applyOps ox t (changes.map (·.toOp dot witnessed)) = .ok t') {q : Triple} {d : Dot}
    (hd : d ∈ t'.dots q) : d ∈ t.dots q ∨ d = dot := by
  by_cases hown : d = dot
  · exact .inr hown
  · left
    refine ((mem_applyOps_of_not_adds h fun op hop hadds => ?_).mp hd).1
    obtain ⟨change, _, rfl⟩ := mem_map.mp hop
    exact hown ((toOp_adds_iff change d).mp hadds).2.2

theorem profile_eq_some_iff {version : RoCrateVersion} :
    s.profile graph = some version ↔ SelectedVersion graph {q | s.quads.Live q} version := by
  have hsound := new_sound (nodup_triples s) graph []
  have hafter : (new graph s.triples []).after = {q | s.quads.Live q} := by
    rw [after_new]
    exact setOf_mem_triples s
  unfold profile
  rw [profileFromView_eq_some_iff hsound, hafter]
  rfl

/-- **An accepted write that covers the rules leaves a valid crate**, if the store does with the
changes what the checks' overlay does. -/
theorem CrateKept.write (h : CrateKept ox graph s)
    (haccepted : structuralRules graph s changes = true) (hcovers : RulesCovered graph s changes)
    (hafter : {q | s'.quads.Live q} = afterChanges graph {q | q ∈ s.triples} changes)
    (hselected : ∃ version, SelectedVersion graph {q | s'.quads.Live q} version) (rule : RuleId) :
    rule.Holds graph {q | s'.quads.Live q} := by
  have hnodup := nodup_triples s
  have hsound := new_sound hnodup graph changes
  have hnew : (new graph s.triples changes).after = {q | s'.quads.Live q} := by
    rw [after_new, hafter]
    rfl
  have hlive := setOf_mem_triples s
  have hcovered : rule.Covered graph s.triples (changes.filterMap (·.touched graph)) := by
    rcases hcovers with hbefore | hnone | hall
    · -- the rules were in force, so they held
      rw [hlive] at hbefore
      refine .inr (.inl ?_)
      rw [hlive]
      exact h.valid hbefore rule
    · rw [hafter] at hselected
      exact absurd hselected hnone
    · exact hall rule
  have hok : validateChangeSet all (new graph s.triples changes) = .ok () := by
    unfold structuralRules isOk at haccepted
    split at haccepted
    · assumption
    · cases haccepted
  have hprofile : profileFromView (new graph s.triples changes) ≠ none := by
    obtain ⟨version, hversion⟩ := hselected
    rw [← hnew] at hversion
    rw [(profileFromView_eq_some_iff hsound).mpr hversion]
    simp
  rw [← hnew]
  exact holds_of_ruleViolation_eq_none hnodup hcovered (ruleViolation_of_accepted hok hprofile rule)

/-- **The step lemma**: a run of changes under a dot that the clock then has keeps a crate, if its
deletes witness every dot of the quads that they are the last change of. -/
theorem CrateKept.applied (hox : ox.PrintsNTriples escape) (h : CrateKept ox graph s)
    (hchanges : CanonicalList ox graph changes) (haccepted : structuralRules graph s changes = true)
    (hcovers : RulesCovered graph s changes)
    {dot : Dot} {witnessed : VectorClock}
    (hops : applyOps ox s.quads (changes.map (·.toOp dot witnessed)) = .ok s'.quads)
    (hclock : s'.clock = s.clock.advance dot.actor dot.counter)
    (hwitnessed : ∀ q, lastChange ox changes q = some false →
      AllWitnessed ox changes dot witnessed s.quads q) :
    CrateKept ox graph s' := by
  have hstart : Mirrors ox (fun q => decide (s.quads.Live q)) {q | q ∈ s.triples} :=
    ⟨fun q => by rw [decide_eq_true_eq]; exact mem_triples,
      fun q hq => h.keys q (mem_triples.mp hq)⟩
  have hmirrors := hstart.canonicalList hox hchanges
  have hafter : {q | s'.quads.Live q} = afterChanges graph {q | q ∈ s.triples} changes := by
    ext q
    rw [hmirrors.1, ← (live_iff_sequential hops).mpr hwitnessed q]
    rfl
  refine ⟨fun q hq => hmirrors.2 q ?_, fun q d hd => ?_, h.write haccepted hcovers hafter⟩
  · rw [← hafter]
    exact hq
  · rw [hclock, VectorClock.contains_advance]
    rcases mem_dots_of_applyOps hops hd with hold | rfl
    · exact .inl (h.seen q d hold)
    · exact .inr ⟨rfl, le_rfl⟩

theorem CrateKept.run (hox : ox.PrintsNTriples escape) (h : CrateKept ox graph s) {w : CrateWrite}
    (hdocumented : w.path.Documented) (hcovers : w.Covers ox graph s)
    (hrun : w.run ox graph s = .ok s') : CrateKept ox graph s' := by
  obtain ⟨raw, hints, path⟩ := w
  unfold CrateWrite.run at hrun
  split at hrun
  · cases hrun
  rename_i changes hraw
  obtain ⟨hrules, hdeletes⟩ := hcovers changes hraw
  split at hrun
  · cases hrun
  rename_i hgraph
  have hchanges : CanonicalList ox graph changes := by
    refine ⟨fun change hmem => ?_, raw, hraw⟩
    by_contra hother
    exact hgraph (any_eq_true.mpr ⟨change, hmem, by simpa using hother⟩)
  cases path with
  | unsynced actor =>
    obtain ⟨⟨_, b⟩, hcommit, rfl⟩ := map_eq_ok.mp hrun
    obtain ⟨_, ⟨_, _, rfl, _⟩ | ⟨_, haccepted, counter, quads, _, hops, rfl, _⟩⟩ :=
      commitLocal_cases hcommit
    · exact h
    · refine h.applied hox hchanges haccepted hrules hops rfl fun q _ =>
        ⟨fun d hd => ?_, fun _ => ?_⟩
      · exact (VectorClock.contains_advance _ _ _ _).mpr (.inl (h.seen q d hd))
      · exact (VectorClock.contains_advance _ _ _ _).mpr (.inr ⟨rfl, le_rfl⟩)
  | published actor irokle =>
    obtain ⟨⟨_, b⟩, hcommit, rfl⟩ := map_eq_ok.mp hrun
    rcases commitSync_cases hdocumented hcommit with ⟨_, rfl⟩ | ⟨haccepted, hops, hclock⟩
    · exact h
    · refine h.applied hox hchanges haccepted hrules hops hclock fun q hlast => ?_
      obtain ⟨hobserved, hnot⟩ := hdeletes q hlast
      exact ⟨hobserved, fun hinserted => absurd hinserted hnot⟩

/-- **Accepted crates stay valid.** In every state that covering writes reach from an empty graph,
no single version is named or every rule's check passes on the whole graph. -/
theorem accepted_crates_valid (hox : ox.PrintsNTriples escape)
    (h : Transition.Reachable (crateRuns ox graph) (CrateWrite.Covers ox graph) s) :
    s.profile graph = none ∨
      ∀ rule : RuleId, rule.checkPostState ⟨graph, s.triples⟩ = .ok () := by
  have hkept : CrateKept ox graph s := by
    refine h.invariant (fun s hempty => ?_) fun s w s' hkept hcovers hstep => ?_
    · have hdead : ∀ q, ¬ s.quads.Live q := by
        intro q hlive
        obtain ⟨d, hd⟩ := (s.quads.live_iff q).mp hlive
        have hquads : s.quads = QuadTable.empty := hempty
        rw [hquads] at hd
        simp at hd
      refine ⟨fun q hlive => absurd hlive (hdead q), fun q d hd => ?_, ?_⟩
      · exact absurd ((s.quads.live_iff q).mpr ⟨d, hd⟩) (hdead q)
      · rintro ⟨_, ⟨marker, _, _, hnamed⟩, _⟩
        exact absurd hnamed (hdead marker.1)
    · exact hkept.run hox hstep.1 hcovers hstep.2
  cases hprofile : s.profile graph with
  | none => exact .inl rfl
  | some version =>
    refine .inr fun rule => ?_
    have hholds := hkept.valid ⟨version, profile_eq_some_iff.mp hprofile⟩ rule
    rw [← setOf_mem_triples] at hholds
    exact (checkPostState_iff (s := ⟨graph, s.triples⟩) (nodup_triples s) rule).mpr hholds

end Runs

def insertAll (triples : List Triple) : CrateWrite :=
  ⟨triples.map (.insert sampleGraph), false, .unsynced 1⟩

/-- The triple that puts the rules of version 1.1 in force. -/
def versionMarker : Triple :=
  ⟨metadataDescriptor, dctermsConformsTo, .fromNamedNode RoCrateVersion.v1_1.specificationUrl⟩

def markedCrate : List Triple := versionMarker :: sampleLink :: unlinkedCrate

def markedDescriptor : List Triple :=
  [⟨metadataDescriptor, rdfType, .fromNamedNode "http://schema.org/Thing".toList⟩, versionMarker]

/-- Inserts into an empty graph that touch all that the rules read. -/
theorem covered_insertAll {triples : List Triple} {changes : List (Bool × Triple)}
    (hchanges : ∀ q, (true, q) ∈ changes ↔ q ∈ triples)
    (hholds : ∀ rule : RuleId, rule.Holds sampleGraph {q | q ∈ triples}) (rule : RuleId) :
    rule.Covered sampleGraph [] changes := by
  cases rule with
  | root => exact .inr (.inr ⟨_, (hchanges _).mpr (hholds .root), rfl⟩)
  | descriptor => exact .inr (.inr ⟨_, (hchanges _).mpr (hholds .descriptor).1, .inl rfl⟩)
  | requiredProperties =>
    refine .inr (.inr fun slot => ?_)
    obtain ⟨o, ho⟩ := hholds .requiredProperties slot
    exact .inl ⟨_, (hchanges _).mpr ho, rfl, rfl⟩
  | datePublished =>
    obtain ⟨o, ho, _⟩ := hholds .datePublished
    exact .inr (.inr ⟨_, (hchanges _).mpr ho, rfl, rfl⟩)
  | entityType =>
    refine .inr (.inl fun q hq => ?_)
    cases hq
  | reachability =>
    refine .inr (.inl ?_)
    rintro e ⟨⟨_, htype | htype | ⟨_, hpart⟩ | ⟨_, hpart⟩⟩, _⟩
    all_goals first | cases htype | cases hpart

/-- Takes the part out of the crate. -/
def removePart : CrateWrite where
  changes := [.delete sampleGraph sampleLink,
    .delete sampleGraph ⟨sampleChild, rdfType, schemaMediaObject⟩]
  hints := false
  path := .unsynced 1

set_option maxRecDepth 16000 in
/-- A whole crate in one write is such a write, and so is any write while the rules are in force. -/
theorem accepted_crates_valid_marked :
    ∃ s s', (insertAll markedCrate).run ntriplesOxrdf sampleGraph GraphState.unknown = .ok s ∧
      removePart.run ntriplesOxrdf sampleGraph s = .ok s' ∧
      s'.profile sampleGraph = some .v1_1 ∧
      ∀ rule : RuleId, rule.checkPostState ⟨sampleGraph, s'.triples⟩ = .ok () := by
  have houtcome : ((insertAll markedCrate).run ntriplesOxrdf sampleGraph unknown).bind (fun s =>
      (removePart.run ntriplesOxrdf sampleGraph s).map fun s' =>
        (s.profile sampleGraph, s'.profile sampleGraph)) = .ok (some .v1_1, some .v1_1) := by
    decide +kernel
  obtain ⟨s, hrun, houtcome⟩ := bind_eq_ok.mp houtcome
  obtain ⟨s', hremove, houtcome⟩ := map_eq_ok.mp houtcome
  obtain ⟨hprofile, hprofile'⟩ := Prod.mk.inj houtcome
  have hvalid : ∀ rule : RuleId, rule.checkPostState ⟨sampleGraph, markedCrate⟩ = .ok () := by
    intro rule
    cases rule <;> decide +kernel
  have hnodup : markedCrate.Nodup := by decide +kernel
  have hcanonical : canonicalChanges ntriplesOxrdf (insertAll markedCrate).changes =
      .ok (markedCrate.map (.insert sampleGraph)) := by
    decide +kernel
  have hcovers : (insertAll markedCrate).Covers ntriplesOxrdf sampleGraph unknown := by
    intro changes hchanges
    cases hcanonical.symm.trans hchanges
    have hinserted : ∀ q,
        (true, q) ∈ (markedCrate.map (insert sampleGraph)).filterMap
        (·.touched sampleGraph) ↔ q ∈ markedCrate := by
      intro q
      simp [MaterializedQuadChange.touched]
    refine ⟨.inr (.inr (covered_insertAll hinserted fun rule => ?_)), trivial⟩
    exact (checkPostState_iff (s := ⟨sampleGraph, markedCrate⟩) hnodup rule).mp (hvalid rule)
  have hstart : Transition.Reachable (crateRuns ntriplesOxrdf sampleGraph)
      (CrateWrite.Covers ntriplesOxrdf sampleGraph) unknown := .init rfl
  have hreached := hstart.step (insertAll markedCrate) hcovers ⟨trivial, hrun⟩
  have hforce : removePart.Covers ntriplesOxrdf sampleGraph s := fun _ _ =>
    ⟨.inl ⟨.v1_1, setOf_mem_triples s ▸ profile_eq_some_iff.mp hprofile⟩, trivial⟩
  have hremoved := hreached.step removePart hforce ⟨trivial, hremove⟩
  rcases accepted_crates_valid ntriplesOxrdf_prints hremoved with hnone | hrules
  · rw [hprofile'] at hnone
    cases hnone
  · exact ⟨s, s', hrun, hremove, hprofile', hrules⟩

set_option maxRecDepth 16000 in
theorem accepted_crate_without_root :
    ∃ s, Transition.Reachable (crateRuns ntriplesOxrdf sampleGraph) Transition.anyStep s ∧
      s.profile sampleGraph = some .v1_1 ∧
      RuleId.root.checkPostState ⟨sampleGraph, s.triples⟩ ≠ .ok () := by
  have houtcome : ((insertAll markedDescriptor).run ntriplesOxrdf sampleGraph
      unknown).map (fun s => (s.profile sampleGraph,
        isOk (root.checkPostState ⟨sampleGraph, s.triples⟩))) = .ok (some .v1_1, false) := by
    decide +kernel
  obtain ⟨s, hrun, houtcome⟩ := map_eq_ok.mp houtcome
  obtain ⟨hprofile, hroot⟩ := Prod.mk.inj houtcome
  have hstart : Transition.Reachable (crateRuns ntriplesOxrdf sampleGraph) Transition.anyStep
      unknown := .init rfl
  refine ⟨s, hstart.step (insertAll markedDescriptor) trivial ⟨trivial, hrun⟩, hprofile, ?_⟩
  intro hok
  rw [hok] at hroot
  cases hroot

end Craqle
