import Craqle.Crate.Candidate

/-! # A check from the changes is a check of the result

What a rule context reads is true of the graph after the changes, and the reachability walk finds an
orphan among the touched entities exactly when there is one. A rule that held before, or whose
triples the changes touch (`RuleId.Covered`), is therefore decided by its candidate check
(`checkCandidate_right`): nothing that the check skips can have broken it.
-/

namespace Craqle

open DeltaSummary Backtrack DeltaReadView List Ordered RuleContext
open Std (ExtTreeSet)
open Relation (ReflTransGen)

/-! ## Reads of a context -/

namespace RuleContext

variable {cx : RuleContext}

/-- The triples of the graph after the changes. -/
def after (cx : RuleContext) : Set Triple := cx.view.after

/-- The maps of the index agree, and no stored row is read twice. -/
structure Sound (cx : RuleContext) : Prop where
  index : cx.view.index.Sound
  base : cx.view.base.Nodup

theorem new_sound {base : List Triple} (hbase : base.Nodup) (graph : GraphId)
    (delta : List MaterializedQuadChange) : (new graph base delta).Sound :=
  ⟨DeltaIndex.sound_foldl _, hbase⟩

variable (h : cx.Sound)
include h

theorem tripleExists_iff {q : Triple} : cx.tripleExists q = true ↔ q ∈ cx.after := by
  unfold tripleExists after
  rw [existsMatch_iff h.index]
  constructor
  · rintro ⟨q', hq', hmatch⟩
    have heq : q = q' := by
      cases q
      cases q'
      simpa [QuadPattern.matches, and_assoc] using hmatch
    exact heq ▸ hq'
  · intro hq
    exact ⟨q, hq, by simp [QuadPattern.matches]⟩

variable {subject : EncodedTerm}

theorem hasSubjectPredicate_iff {predicate : EncodedTerm} :
    cx.hasSubjectPredicate subject predicate = true ↔ ∃ o, ⟨subject, predicate, o⟩ ∈ cx.after := by
  unfold hasSubjectPredicate after
  rw [existsMatch_iff h.index]
  constructor
  · rintro ⟨⟨s, p, o⟩, hq, hmatch⟩
    obtain ⟨rfl, rfl⟩ : subject = s ∧ predicate = p := by
      simpa [QuadPattern.matches] using hmatch
    exact ⟨o, hq⟩
  · rintro ⟨o, ho⟩
    exact ⟨_, ho, by simp [QuadPattern.matches]⟩

theorem subjectHasTriples_iff :
    cx.subjectHasTriples subject = true ↔ ∃ q ∈ cx.after, q.subject = subject := by
  unfold subjectHasTriples after
  rw [existsMatch_iff h.index]
  refine exists_congr fun q => and_congr_right fun _ => ?_
  simp [QuadPattern.matches, eq_comm]

theorem countSp_eq_one_iff {predicate : EncodedTerm} :
    cx.countSp subject predicate = 1 ↔ ∃! o, ⟨subject, predicate, o⟩ ∈ cx.after := by
  have hmatch : ∀ q : Triple,
      (⟨some subject, some predicate, none⟩ : QuadPattern).matches q = true ↔
      q.subject = subject ∧ q.predicate = predicate := by
    intro q
    simp only [QuadPattern.matches, Option.all_some, Option.all_none, Bool.and_true,
      Bool.and_eq_true, decide_eq_true_eq]
    rw [@eq_comm _ subject, @eq_comm _ predicate]
  have hrows : ∀ q ∈ cx.view.scan ⟨some subject, some predicate, none⟩,
      q.subject = subject ∧ q.predicate = predicate := fun q hq =>
    (hmatch q).mp ((mem_scan h.index).mp hq).1
  have hlength := length_eq_one_iff (nodup_scan h.index h.base) hrows
  have hcap : cx.countSp subject predicate = 1 ↔
      (cx.view.scan ⟨some subject, some predicate, none⟩).length = 1 := by
    unfold countSp countUpTo
    omega
  rw [hcap, hlength]
  refine existsUnique_congr fun o => ?_
  rw [mem_scan h.index, hmatch]
  simp [after]

theorem mem_partRows {q : Triple} :
    q ∈ cx.partRows ↔ q.predicate = schemaHasPart ∧ q ∈ cx.after := by
  unfold partRows after
  rw [mem_scan h.index]
  simp [QuadPattern.matches, eq_comm]

/-- The terms at one place of the matching rows, where a term there comes from one row only. -/
theorem mem_scanned {pattern : QuadPattern} {place : Triple → EncodedTerm} {row : Triple}
    (hrow : pattern.matches row = true)
    (hone : ∀ q, pattern.matches q = true → place q = place row → row = q) :
    place row ∈ (ExtTreeSet.ofList ((cx.view.scan pattern).map place) compare).toList ↔
      row ∈ cx.after := by
  rw [ExtTreeSet.mem_toList, mem_ofList, mem_map]
  constructor
  · rintro ⟨q, hq, hplace⟩
    obtain ⟨hmatch, hafter⟩ := (mem_scan h.index).mp hq
    exact hone q hmatch hplace ▸ hafter
  · exact fun hq => ⟨row, (mem_scan h.index).mpr ⟨hrow, hq⟩, rfl⟩

theorem mem_children {whole part : EncodedTerm} :
    part ∈ (cx.children whole).toList ↔ Part cx.after whole part := by
  refine @mem_scanned cx h _ Triple.object ⟨whole, schemaHasPart, part⟩ ?_ fun ⟨s, p, o⟩ => ?_
  · simp [QuadPattern.matches]
  · simp +contextual [QuadPattern.matches]

theorem mem_parents {whole part : EncodedTerm} :
    whole ∈ (cx.parents part).toList ↔ Part cx.after whole part := by
  refine @mem_scanned cx h _ Triple.subject ⟨whole, schemaHasPart, part⟩ ?_ fun ⟨s, p, o⟩ => ?_
  · simp [QuadPattern.matches]
  · simp +contextual [QuadPattern.matches]

end RuleContext

/-! ## The walk -/

namespace ReachabilityWalk

variable {cx : RuleContext} (h : cx.Sound)
include h

variable {e : EncodedTerm}

theorem isDataEntity_iff (he : e ≠ cx.root) :
    isDataEntity cx e = true ↔ DataEntity cx.root cx.after e := by
  have hsome : ∀ s : ExtTreeSet EncodedTerm compare, (!s.isEmpty) = true ↔ ∃ x, x ∈ s.toList := by
    intro s
    rw [Bool.not_eq_true', ← Bool.not_eq_true, ExtTreeSet.isEmpty_iff, ← Ne, ne_empty_iff]
    simp
  unfold isDataEntity DataEntity
  rw [Bool.or_eq_true, Bool.or_eq_true, Bool.or_eq_true, hsome, hsome,
    tripleExists_iff h, tripleExists_iff h]
  simp only [RuleContext.mem_children h, RuleContext.mem_parents h]
  rw [and_iff_right he, or_assoc, or_assoc]

/-- Walking down from a seed adds what it has below it, if what is below the entities found so far
has been found. -/
theorem mem_collectDescendants {seed : EncodedTerm} {out : ExtTreeSet EncodedTerm compare}
    (hout : ∀ x ∈ out, ∀ y, Part cx.after x y → y ∈ out) :
    e ∈ collectDescendants cx seed out ↔ e ∈ out ∨ ReflTransGen (Part cx.after) seed e := by
  have hedge : (fun x y => y ∈ (cx.children x).toList) = Part cx.after := by
    funext x y
    exact propext (RuleContext.mem_children h)
  have hpath : ∀ x y, Traverse.Reaches (fun x => (cx.children x).toList) x y ↔
      ReflTransGen (Part cx.after) x y := by
    intro x y
    unfold Traverse.Reaches
    rw [hedge]
  -- every child has a row of its own
  have hcount : ∀ x, (cx.children x).toList.length ≤
      ((cx.partRows.map fun q => (q.subject, q.object)).filter (·.1 = x)).length := by
    intro x
    have hsub : (cx.children x).toList ⊆
        ((cx.partRows.map fun q => (q.subject, q.object)).filter (·.1 = x)).map Prod.snd := by
      intro y hy
      have hrow := (RuleContext.mem_partRows h).mpr ⟨rfl, (RuleContext.mem_children h).mp hy⟩
      refine mem_map.mpr
        ⟨(x, y), mem_filter.mpr ⟨mem_map.mpr ⟨_, hrow, rfl⟩, ?_⟩, rfl⟩
      simp
    have hle := (subperm_of_subset (nodup_toList (cx.children x)) hsub).length_le
    rwa [length_map] at hle
  unfold collectDescendants
  rw [Traverse.mem_markTaken hcount]
  · constructor
    · rintro ⟨x, hx | hx, hxe⟩
      · refine .inl (hxe.mem_of_closed (fun z hz y hy => ?_) hx)
        exact hout z hz y ((RuleContext.mem_children h).mp hy)
      · rw [mem_singleton.mp hx] at hxe
        exact .inr ((hpath seed e).mp hxe)
    · rintro (he | hreach)
      · exact ⟨e, .inl he, .refl⟩
      · exact ⟨seed, .inr (by simp), (hpath seed e).mpr hreach⟩
  · exact fun x hx y hy => .inl (hout x hx y ((RuleContext.mem_children h).mp hy))
  · have hle := length_filter_le (fun e => decide (e.1 ∉ out))
      (cx.partRows.map fun q => (q.subject, q.object))
    rw [length_map] at hle
    rw [length_singleton]
    omega

/-- The entities that seeds have below them. -/
theorem mem_foldl_collectDescendants (seeds : List EncodedTerm)
    (out : ExtTreeSet EncodedTerm compare) (hout : ∀ x ∈ out, ∀ y, Part cx.after x y → y ∈ out) :
    e ∈ seeds.foldl (fun out seed => collectDescendants cx seed out) out ↔
      e ∈ out ∨ ∃ seed ∈ seeds, ReflTransGen (Part cx.after) seed e := by
  induction seeds generalizing out with
  | nil => simp
  | cons seed seeds ih =>
    rw [foldl_cons, ih]
    · rw [mem_collectDescendants h hout, exists_mem_cons_iff, or_assoc]
    · intro x hx y hxy
      rw [mem_collectDescendants h hout] at hx ⊢
      rcases hx with hx | hx
      · exact .inl (hout x hx y hxy)
      · exact .inr (hx.tail hxy)

/-- Verdicts that are remembered are right, and no entity is on a path. -/
structure Ready (cx : RuleContext) (w : ReachabilityWalk) : Prop where
  memo : ∀ x b, w.reachable[x]? = some b → (b = true ↔ ReflTransGen (Part cx.after) cx.root x)
  visiting : ∀ x, x ∉ w.visiting

omit h in
theorem ready_new : Ready cx new := ⟨by simp [new], by simp [new]⟩

theorem below_iff {x : EncodedTerm} :
    Below cx.root (fun x => (cx.parents x).toList) x ↔
      ReflTransGen (Part cx.after) cx.root x := by
  have hedge : (fun p x => p ∈ (cx.parents x).toList) = Part cx.after := by
    funext p x
    exact propext (RuleContext.mem_parents h)
  unfold Below
  rw [hedge]

theorem parents_subset (x : EncodedTerm) :
    (cx.parents x).toList ⊆ cx.partRows.map (·.subject) := by
  intro y hy
  have hrow := (RuleContext.mem_partRows h).mpr ⟨rfl, (RuleContext.mem_parents h).mp hy⟩
  exact mem_map.mpr ⟨_, hrow, rfl⟩

/-- The search starts with one frame. -/
theorem start_ok {w : ReachabilityWalk} (hw : Ready cx w) (hroot : e ≠ cx.root) :
    Ok cx.root (fun x => (cx.parents x).toList) e
      (openFrame (fun x => (cx.parents x).toList) w e).1
      [(openFrame (fun x => (cx.parents x).toList) w e).2] false where
  memo x b hb := (hw.memo x b hb).trans (below_iff h).symm
  visiting x := by
    simp only [openFrame, mem_insert, map_cons, map_nil, mem_singleton]
    exact or_iff_left (hw.visiting x)
  frames := ⟨Backtrack.FrameOk.opened hroot not_mem_nil, trivial⟩
  bottom x hx := ⟨(Option.some.inj hx).symm, rfl⟩
  result hempty := absurd hempty (cons_ne_nil _ _)

/-- **The walk decides reachability**, and is ready for the next entity. -/
theorem isReachable_right {w : ReachabilityWalk} (hw : Ready cx w) (e : EncodedTerm) :
    Ready cx (isReachable cx w e).1 ∧
      ((isReachable cx w e).2 = true ↔ ReflTransGen (Part cx.after) cx.root e) := by
  unfold isReachable
  split
  · rename_i heq
    subst heq
    exact ⟨hw, iff_of_true rfl .refl⟩
  rename_i hroot
  split
  · rename_i verdict hverdict
    exact ⟨hw, hw.memo e verdict hverdict⟩
  rw [if_neg (hw.visiting e)]
  -- entities on a path are the one in question and subjects of rows
  have hsub := parents_subset h
  have hwidth : ∀ x, (cx.parents x).toList.length ≤ cx.partRows.length := by
    intro x
    have hle := (subperm_of_subset (nodup_toList (cx.parents x)) (hsub x)).length_le
    rwa [length_map] at hle
  have hnodes : ∀ x, ∀ p ∈ (cx.parents x).toList, p ∈ e :: cx.partRows.map (·.subject) :=
    fun x p hp => mem_cons_of_mem _ (hsub x hp)
  have hstart := start_ok h hw hroot
  have hpath : ∀ f ∈ [(openFrame (fun x => (cx.parents x).toList) w e).2],
      f.entity ∈ e :: cx.partRows.map (·.subject) := by
    intro f hf
    rw [mem_singleton.mp hf]
    exact mem_cons_self
  have hfuel : potential cx.partRows.length
      (e :: cx.partRows.map (·.subject)).length
      [(openFrame (fun x => (cx.parents x).toList) w e).2] ≤
      room cx.partRows.length (cx.partRows.length + 1) := by
    have hfirst := Nat.mul_le_mul_right
      (1 + room cx.partRows.length cx.partRows.length) (hwidth e)
    simp only [potential, openFrame, room, length_cons,
      length_nil, length_map, Nat.zero_add, Nat.add_sub_cancel, Nat.add_zero]
    omega
  have hdone := search_correct hwidth hnodes hstart hpath hfuel
  refine ⟨⟨fun x b hb => (hdone.memo x b hb).trans (below_iff h), fun x hx => ?_⟩, ?_⟩
  · exact not_mem_nil ((hdone.visiting x).mp hx)
  · exact (hdone.result rfl).trans (below_iff h)

theorem orphanAmong_iff {w : ReachabilityWalk} (hw : Ready cx w) (candidates : List EncodedTerm) :
    (orphanAmong cx w candidates).isSome = true ↔
      ∃ e ∈ candidates, Orphan cx.root cx.after e := by
  induction candidates generalizing w with
  | nil => simp [orphanAmong]
  | cons e rest ih =>
    unfold orphanAmong
    rw [exists_mem_cons_iff]
    split
    · rename_i hroot
      rw [ih hw]
      exact (or_iff_right fun horphan => horphan.1.1 hroot).symm
    rename_i hroot
    obtain ⟨hnext, hverdict⟩ := isReachable_right h hw e
    split
    · rename_i hdata
      have hdata := (isDataEntity_iff h hroot).mp hdata
      dsimp only
      split
      · rename_i hreach
        rw [ih hnext]
        exact (or_iff_right fun horphan => horphan.2 (hverdict.mp hreach)).symm
      · rename_i hreach
        exact iff_of_true rfl (.inl ⟨hdata, fun hpath => hreach (hverdict.mpr hpath)⟩)
    · rename_i hdata
      rw [ih hw]
      exact (or_iff_right fun horphan =>
        hdata ((isDataEntity_iff h hroot).mpr horphan.1)).symm

/-- **The first orphan is found among the seeds' parts and the probes**, if one of them is an
orphan. -/
theorem firstOrphan_iff (summary : DeltaSummary) :
    (firstOrphan cx new summary).isSome = true ↔
      ∃ e, ((∃ seed ∈ summary.reachabilitySeeds, ReflTransGen (Part cx.after) seed e) ∨
        e ∈ summary.reachabilityProbes) ∧ Orphan cx.root cx.after e := by
  have hcandidates : ∀ (e : EncodedTerm) (out : ExtTreeSet EncodedTerm compare),
      e ∈ summary.reachabilityProbes.toList.foldl (fun out probe => out.insert probe) out ↔
        e ∈ out ∨ e ∈ summary.reachabilityProbes := by
    intro e out
    rw [Updates.foldl_iff_exists (P := fun out => e ∈ out) (Q := fun probe => e = probe)
      (fun out probe => by rw [mem_insert, or_comm])]
    simp
  unfold firstOrphan
  rw [orphanAmong_iff h ready_new]
  refine exists_congr fun e => and_congr_left fun _ => ?_
  rw [ExtTreeSet.mem_toList, hcandidates, mem_foldl_collectDescendants h _ _ (by simp)]
  simp

end ReachabilityWalk

/-! ## Orphans that a change set leaves -/

section Orphans

variable {root : EncodedTerm} {T : Set Triple} {changes : List (Bool × Triple)}

theorem reached_or_below_seed {x : EncodedTerm} (h : ReflTransGen (Part T) root x) :
    ReflTransGen (Part (applyTouched T changes)) root x ∨
      ∃ seed ∈ (summarize root changes).reachabilitySeeds,
        ReflTransGen (Part (applyTouched T changes)) seed x := by
  -- on the path in the graph before the changes
  induction h with
  | refl => exact .inl .refl
  | @tail x y _ hedge ih =>
    by_cases hafter : Part (applyTouched T changes) x y
    · rcases ih with hx | ⟨seed, hseed, hx⟩
      · exact .inl (hx.tail hafter)
      · exact .inr ⟨seed, hseed, hx.tail hafter⟩
    · -- the edge is gone, so a change names it and its object is a seed
      refine .inr ⟨y, mem_reachabilitySeeds.mpr ?_, .refl⟩
      by_contra hnone
      refine hafter ((mem_applyTouched_of_untouched fun change hchange heq => hnone ?_).mpr hedge)
      exact ⟨change, hchange, .inl (by rw [heq]; exact ⟨rfl, rfl⟩)⟩

/-- **Every orphan that a change set makes is below a seed, or a probe**, where each that was there
before is one of them itself. -/
theorem orphan_below_seed_or_probe
    (hbefore : ∀ e, Orphan root T e → e ∈ (summarize root changes).reachabilitySeeds ∨
      e ∈ (summarize root changes).reachabilityProbes) {e : EncodedTerm}
    (h : Orphan root (applyTouched T changes) e) :
    (∃ seed ∈ (summarize root changes).reachabilitySeeds,
        ReflTransGen (Part (applyTouched T changes)) seed e) ∨
      e ∈ (summarize root changes).reachabilityProbes := by
  obtain ⟨⟨hroot, hdata⟩, hunreached⟩ := h
  by_cases hentity : DataEntity root T e
  · by_cases hreached : ReflTransGen (Part T) root e
    · exact .inl ((reached_or_below_seed hreached).resolve_left hunreached)
    · exact (hbefore e ⟨hentity, hreached⟩).imp (fun hseed => ⟨e, hseed, .refl⟩) id
  -- what makes it a data entity was inserted
  have hseed : e ∈ (summarize root changes).reachabilitySeeds →
      ∃ seed ∈ (summarize root changes).reachabilitySeeds,
        ReflTransGen (Part (applyTouched T changes)) seed e := fun he => ⟨e, he, .refl⟩
  rcases hdata with htype | htype | ⟨part, hpart⟩ | ⟨whole, hpart⟩
  · have hnew := exists_insert_of_mem htype fun hold => hentity ⟨hroot, .inl hold⟩
    exact .inl (hseed (mem_reachabilitySeeds.mpr
      ⟨_, hnew, .inr ⟨⟨rfl, .inl rfl⟩, rfl⟩⟩))
  · have hnew := exists_insert_of_mem htype fun hold => hentity ⟨hroot, .inr (.inl hold)⟩
    exact .inl (hseed (mem_reachabilitySeeds.mpr
      ⟨_, hnew, .inr ⟨⟨rfl, .inr rfl⟩, rfl⟩⟩))
  · have hnew := exists_insert_of_mem hpart fun hold =>
      hentity ⟨hroot, .inr (.inr (.inl ⟨part, hold⟩))⟩
    exact .inr (mem_reachabilityProbes.mpr ⟨_, hnew, rfl, rfl⟩)
  · have hnew := exists_insert_of_mem hpart fun hold =>
      hentity ⟨hroot, .inr (.inr (.inr ⟨whole, hold⟩))⟩
    exact .inl (hseed (mem_reachabilitySeeds.mpr ⟨_, hnew, .inl ⟨rfl, rfl⟩⟩))

end Orphans

/-! ## The candidate checks -/

/-- A rule that a candidate check can decide: it held before the changes, or the changes touch what
it reads. -/
def RuleId.Covered (graph : GraphId) (base : List Triple) (changes : List (Bool × Triple))
    (rule : RuleId) : Prop :=
  changes = [] ∨ rule.Holds graph {q | q ∈ base} ∨
    match rule with
    | .root => ∃ change ∈ changes, change.2 = ⟨graphRoot graph, rdfType, schemaDataset⟩
    | .descriptor => ∃ change ∈ changes,
        change.2 = ⟨metadataDescriptor, rdfType, schemaCreativeWork⟩ ∨
          change.2 = ⟨metadataDescriptor, schemaAbout, graphRoot graph⟩
    | .requiredProperties => ∀ slot,
        (∃ change ∈ changes, change.2.subject = graphRoot graph ∧
          change.2.predicate = (requiredRootProperties slot).1) ∨
        ∃ o, ⟨graphRoot graph, (requiredRootProperties slot).1, o⟩ ∈ base
    | .datePublished => ∃ change ∈ changes, change.2.subject = graphRoot graph ∧
        change.2.predicate = schemaDatePublished
    | .entityType => ∀ q ∈ base, (∃ o, ⟨q.subject, rdfType, o⟩ ∈ base) ∨
        ∃ change ∈ changes, change.2.predicate = rdfType ∧ q.subject = change.2.subject
    | .reachability => ∀ e, Orphan (graphRoot graph) {q | q ∈ base} e →
        ∃ change ∈ changes,
          (change.2.predicate = schemaHasPart ∧ (e = change.2.subject ∨ e = change.2.object)) ∨
            (DeltaSummary.DataType change.2 ∧ e = change.2.subject)

/-- What a check says of a rule is true. -/
def CandidateCheck.Right (holds : Prop) : CandidateCheck → Prop
  | .pass => holds
  | .violation _ => ¬ holds
  | .needSnapshot => True

section Right

variable {graph : GraphId} {base : List Triple} {delta : List MaterializedQuadChange}

theorem after_new : (new graph base delta).after =
    applyTouched {q | q ∈ base} (delta.filterMap (·.touched graph)) := by
  ext q
  exact (DeltaIndex.mem_applyTouched_iff {q | q ∈ base} _ q).symm

theorem deltaIsEmpty_iff : (new graph base delta).deltaIsEmpty = true ↔
    delta.filterMap (·.touched graph) = [] :=
  DeltaIndex.isEmpty_changedSubjects _

theorem mem_after_of_untouched {q : Triple}
    (h : ∀ change ∈ delta.filterMap (·.touched graph), change.2 ≠ q) :
    q ∈ (new graph base delta).after ↔ q ∈ base := by
  rw [after_new, mem_applyTouched_of_untouched h]
  rfl

/-- A check that skips a covered rule leaves it as it was. -/
theorem held_of_skip {held touched : Prop} {hit : Bool} (hhit : hit = true ↔ touched)
    (h : delta.filterMap (·.touched graph) = [] ∨ held ∨ touched)
    (hskip : (new graph base delta).deltaIsEmpty = false ∧ hit = false) : held ∧ ¬ touched := by
  have hnone : ¬ touched := by
    rw [← hhit, hskip.2]
    exact Bool.false_ne_true
  rcases h with hempty | hheld | htouched
  · exact absurd (deltaIsEmpty_iff.mpr hempty) (Bool.eq_false_iff.mp hskip.1)
  · exact ⟨hheld, hnone⟩
  · exact absurd htouched hnone

theorem right_ite {holds p : Prop} [Decidable p] (h : p ↔ holds) (v : CrateViolation) :
    CandidateCheck.Right holds (if p then .pass else .violation v) := by
  split
  · rename_i hp
    exact h.mp hp
  · rename_i hp
    exact fun hholds => hp (h.mpr hholds)

variable (hbase : base.Nodup)
include hbase

theorem RootEntityRule.checkCandidate_right
    (h : RuleId.root.Covered graph base (delta.filterMap (·.touched graph))) :
    (checkCandidate (new graph base delta)).Right
      (RuleId.root.Holds graph (new graph base delta).after) := by
  have hsound := new_sound hbase graph delta
  unfold checkCandidate
  split
  · rename_i hskip
    obtain ⟨hheld, hnone⟩ := held_of_skip touchesRootDataset_iff h hskip
    exact (mem_after_of_untouched fun change hc heq => hnone ⟨change, hc, heq⟩).mpr hheld
  · exact right_ite (tripleExists_iff hsound) _

theorem MetadataDescriptorRule.checkCandidate_right
    (h : RuleId.descriptor.Covered graph base (delta.filterMap (·.touched graph))) :
    (checkCandidate (new graph base delta)).Right
      (RuleId.descriptor.Holds graph (new graph base delta).after) := by
  have hsound := new_sound hbase graph delta
  unfold checkCandidate
  split
  · rename_i hskip
    obtain ⟨⟨htype, habout⟩, hnone⟩ := held_of_skip touchesMetadataDescriptor_iff h hskip
    exact ⟨(mem_after_of_untouched fun change hc heq => hnone ⟨change, hc, .inl heq⟩).mpr htype,
      (mem_after_of_untouched fun change hc heq => hnone ⟨change, hc, .inr heq⟩).mpr habout⟩
  · exact right_ite (Bool.and_eq_true_iff.trans
      (and_congr (tripleExists_iff hsound) (tripleExists_iff hsound))) _

theorem RequiredRootRule.checkCandidate_right
    (h : RuleId.requiredProperties.Covered graph base (delta.filterMap (·.touched graph))) :
    (checkCandidate (new graph base delta)).Right
      (RuleId.requiredProperties.Holds graph (new graph base delta).after) := by
  have hsound := new_sound hbase graph delta
  -- a property that the check skips was there before, and nothing removed it
  have hskipped : ∀ slot, (new graph base delta).deltaIsEmpty = false →
      (new graph base delta).summary.requiredRootHits slot = false →
      ∃ o, ⟨graphRoot graph, (requiredRootProperties slot).1, o⟩ ∈
        (new graph base delta).after := by
    intro slot hchanged hunhit
    have hslot := h.imp_right fun h => h.imp (fun hheld => hheld slot) fun htouched => htouched slot
    obtain ⟨⟨o, ho⟩, hnone⟩ := held_of_skip (@requiredRootHits_iff _ _ slot)
      (hslot.imp_right fun h => h.elim .inl Or.symm) ⟨hchanged, hunhit⟩
    refine ⟨o, (mem_after_of_untouched fun change hc heq => hnone ⟨change, hc, ?_⟩).mpr ho⟩
    rw [heq]
    exact ⟨rfl, rfl⟩
  unfold checkCandidate
  split
  · rename_i hskip
    intro slot
    refine hskipped slot hskip.1 ?_
    have hall := any_eq_false.mp hskip.2 slot (mem_finRange slot)
    exact Bool.not_eq_true _ ▸ hall
  dsimp only
  split
  · rename_i slot hmissing
    have hslot := find?_some hmissing
    simp only [Bool.and_eq_true, Bool.not_eq_true'] at hslot
    intro hholds
    have hhas := (RuleContext.hasSubjectPredicate_iff hsound).mpr (hholds slot)
    rw [show graphRoot graph = (new graph base delta).root from rfl, hslot.2] at hhas
    cases hhas
  · rename_i hmissing
    intro slot
    have hslot := find?_eq_none.mp hmissing slot (mem_finRange slot)
    by_cases hlooked : ((new graph base delta).deltaIsEmpty ||
        (new graph base delta).summary.requiredRootHits slot) = true
    · refine (hasSubjectPredicate_iff hsound).mp ?_
      rw [hlooked, Bool.true_and, Bool.not_eq_true', Bool.not_eq_false] at hslot
      exact hslot
    · obtain ⟨hchanged, hunhit⟩ := Bool.or_eq_false_iff.mp (Bool.not_eq_true _ ▸ hlooked)
      exact hskipped slot hchanged hunhit

theorem PublishedCardinalityRule.checkCandidate_right
    (h : RuleId.datePublished.Covered graph base (delta.filterMap (·.touched graph))) :
    (checkCandidate (new graph base delta)).Right
      (RuleId.datePublished.Holds graph (new graph base delta).after) := by
  have hsound := new_sound hbase graph delta
  unfold checkCandidate
  split
  · rename_i hskip
    obtain ⟨hheld, hnone⟩ := held_of_skip (@requiredRootHits_iff _ _ datePublishedSlot) h hskip
    refine (existsUnique_congr fun o => ?_).mpr hheld
    refine mem_after_of_untouched fun change hc heq => hnone ⟨change, hc, ?_⟩
    rw [heq]
    exact ⟨rfl, rfl⟩
  · exact right_ite (RuleContext.countSp_eq_one_iff hsound) _

theorem EntityTypeRule.checkCandidate_right
    (h : RuleId.entityType.Covered graph base (delta.filterMap (·.touched graph))) :
    (checkCandidate (new graph base delta)).Right
      (RuleId.entityType.Holds graph (new graph base delta).after) := by
  have hsound := new_sound hbase graph delta
  unfold checkCandidate
  split
  · trivial
  rename_i hchanged
  have hheld : ∀ q ∈ base, (∃ o, ⟨q.subject, rdfType, o⟩ ∈ base) ∨
      ∃ change ∈ delta.filterMap (·.touched graph),
        change.2.predicate = rdfType ∧ q.subject = change.2.subject := by
    rcases h with hempty | hheld | htouched
    · exact absurd (deltaIsEmpty_iff.mpr hempty) hchanged
    · exact fun q hq => .inl (hheld q hq)
    · exact htouched
  have hcandidates : ∀ e,
      e ∈ (new graph base delta).summary.insertedSubjects.toList.foldl
      (fun candidates subject =>
        if (new graph base delta).subjectExistedBefore subject then candidates
        else candidates.insert subject)
      (new graph base delta).summary.typeChangedSubjects ↔
      e ∈ (new graph base delta).summary.typeChangedSubjects ∨
        (e ∈ (new graph base delta).summary.insertedSubjects ∧
          ¬ ∃ q ∈ base, q.subject = e) := by
    intro e
    rw [Updates.foldl_iff_exists (P := fun candidates => e ∈ candidates)
      (Q := fun subject => e = subject ∧ ¬ ∃ q ∈ base, q.subject = subject)]
    · refine or_congr_right ?_
      constructor
      · rintro ⟨subject, hsubject, rfl, hnew⟩
        exact ⟨ExtTreeSet.mem_toList.mp hsubject, hnew⟩
      · rintro ⟨hsubject, hnew⟩
        exact ⟨e, ExtTreeSet.mem_toList.mpr hsubject, rfl, hnew⟩
    · intro candidates subject
      have hexisted : (new graph base delta).subjectExistedBefore subject = true ↔
          ∃ q ∈ base, q.subject = subject := by
        simp [RuleContext.subjectExistedBefore, baseSubjectExists, new]
      split
      · rename_i hold
        have hold := hexisted.mp hold
        exact (or_iff_left fun hnew => hnew.2 hold).symm
      · rename_i hold
        have hold := fun hq => hold (hexisted.mpr hq)
        rw [mem_insert, or_comm, and_iff_left hold]
  dsimp only
  split
  · rename_i subject hfind
    have huntyped := find?_some hfind
    simp only [Bool.and_eq_true, Bool.not_eq_true'] at huntyped
    obtain ⟨q, hq, rfl⟩ := (subjectHasTriples_iff hsound).mp huntyped.1
    intro hholds
    have htyped := (RuleContext.hasSubjectPredicate_iff hsound).mpr (hholds q hq)
    rw [huntyped.2] at htyped
    cases htyped
  · rename_i hfind
    intro q hq
    by_contra huntyped
    -- an untyped subject with a row is no candidate
    have hnot : ¬ (q.subject ∈ (new graph base delta).summary.typeChangedSubjects ∨
        (q.subject ∈ (new graph base delta).summary.insertedSubjects ∧
          ¬ ∃ q' ∈ base, q'.subject = q.subject)) := by
      rw [← hcandidates, ← ExtTreeSet.mem_toList]
      intro hmem
      have hfound := find?_eq_none.mp hfind q.subject hmem
      have hrows := (subjectHasTriples_iff hsound).mpr ⟨q, hq, rfl⟩
      have htype : (new graph base delta).hasSubjectPredicate q.subject rdfType =
          false := by
        rw [← Bool.not_eq_true, hasSubjectPredicate_iff hsound]
        exact huntyped
      rw [hrows, htype] at hfound
      exact hfound rfl
    by_cases hold : ∃ q' ∈ base, q'.subject = q.subject
    · obtain ⟨q', hq', hsubject⟩ := hold
      have htyped := hheld q' hq'
      rw [hsubject] at htyped
      rcases htyped with ⟨o, ho⟩ | hretyped
      swap
      · exact hnot (.inl (mem_typeChangedSubjects.mpr hretyped))
      refine huntyped ⟨o, (mem_after_of_untouched fun change hc heq => hnot (.inl ?_)).mpr ho⟩
      exact mem_typeChangedSubjects.mpr ⟨change, hc, by rw [heq]; exact ⟨rfl, rfl⟩⟩
    · rw [after_new] at hq
      have hnew := exists_insert_of_mem hq fun hmem => hold ⟨q, hmem, rfl⟩
      exact hnot (.inr ⟨mem_insertedSubjects.mpr ⟨_, hnew, rfl, rfl⟩, hold⟩)

theorem ReachabilityRule.checkCandidate_right
    (h : RuleId.reachability.Covered graph base (delta.filterMap (·.touched graph))) :
    (checkCandidate (new graph base delta)).Right
      (RuleId.reachability.Holds graph (new graph base delta).after) := by
  have hsound := new_sound hbase graph delta
  unfold checkCandidate
  split
  · trivial
  rename_i hchanged
  have hheld : ∀ e, Orphan (graphRoot graph) {q | q ∈ base} e →
      e ∈ (summarizeDelta graph delta).reachabilitySeeds ∨
        e ∈ (summarizeDelta graph delta).reachabilityProbes := by
    rcases h with hempty | hheld | htouched
    · exact absurd (deltaIsEmpty_iff.mpr hempty) hchanged
    · exact fun e he => absurd he (hheld e)
    · intro e he
      obtain ⟨change, hc, ⟨hpart, hsubject | hobject⟩ | hdata⟩ := htouched e he
      · exact .inr (mem_reachabilityProbes.mpr ⟨change, hc, hpart, hsubject⟩)
      · exact .inl (mem_reachabilitySeeds.mpr ⟨change, hc, .inl ⟨hpart, hobject⟩⟩)
      · exact .inl (mem_reachabilitySeeds.mpr ⟨change, hc, .inr hdata⟩)
  have hfound : ∀ e, Orphan (graphRoot graph) (new graph base delta).after e →
      (∃ seed ∈ (summarizeDelta graph delta).reachabilitySeeds,
          ReflTransGen (Part (new graph base delta).after) seed e) ∨
        e ∈ (summarizeDelta graph delta).reachabilityProbes := by
    rw [after_new]
    exact fun e he => orphan_below_seed_or_probe hheld he
  split
  · rename_i huntouched
    have hnone : ¬ ∃ change ∈ delta.filterMap (·.touched graph),
        change.2.predicate = schemaHasPart ∨ DataType change.2 := by
      have htouches : (summarizeDelta graph delta).touchesReachability = true ↔
          ∃ change ∈ delta.filterMap (·.touched graph),
            change.2.predicate = schemaHasPart ∨ DataType change.2 :=
        touchesReachability_iff
      rw [← htouches, Bool.not_eq_true]
      exact huntouched
    intro e he
    rcases hfound e he with ⟨seed, hseed, _⟩ | hprobe
    · obtain ⟨change, hc, hshape⟩ := mem_reachabilitySeeds.mp hseed
      exact hnone ⟨change, hc, hshape.imp And.left And.left⟩
    · obtain ⟨change, hc, hpart, _⟩ := DeltaSummary.mem_reachabilityProbes.mp hprobe
      exact hnone ⟨change, hc, .inl hpart⟩
  · have hsome := ReachabilityWalk.firstOrphan_iff hsound (summarizeDelta graph delta)
    split
    · rename_i entity horphan
      have hexists := hsome.mp (by
        rw [show summarizeDelta graph delta = (new graph base delta).summary from rfl, horphan]
        rfl)
      obtain ⟨e, _, he⟩ := hexists
      exact fun hholds => hholds e he
    · rename_i horphan
      intro e he
      have hnone := hsome.mpr ⟨e, hfound e he, he⟩
      rw [show (summarizeDelta graph delta) = (new graph base delta).summary from rfl,
        horphan] at hnone
      cases hnone

/-- **A candidate check is right about a covered rule.** -/
theorem RuleId.checkCandidate_right {rule : RuleId}
    (h : rule.Covered graph base (delta.filterMap (·.touched graph))) :
    (rule.checkCandidate (new graph base delta)).Right
      (rule.Holds graph (new graph base delta).after) := by
  cases rule with
  | root => exact RootEntityRule.checkCandidate_right hbase h
  | descriptor => exact MetadataDescriptorRule.checkCandidate_right hbase h
  | requiredProperties => exact RequiredRootRule.checkCandidate_right hbase h
  | datePublished => exact PublishedCardinalityRule.checkCandidate_right hbase h
  | entityType => exact EntityTypeRule.checkCandidate_right hbase h
  | reachability => exact ReachabilityRule.checkCandidate_right hbase h

omit hbase in
theorem RuleId.deltaIsEmpty_of_needSnapshot {rule : RuleId}
    (h : rule.checkCandidate (new graph base delta) = .needSnapshot) :
    delta.filterMap (·.touched graph) = [] := by
  have hempty : (new graph base delta).deltaIsEmpty = true ↔ _ := deltaIsEmpty_iff
  refine hempty.mp ?_
  cases rule with
  | root | descriptor | datePublished =>
    simp only [RuleId.checkCandidate, RootEntityRule.checkCandidate,
      MetadataDescriptorRule.checkCandidate, PublishedCardinalityRule.checkCandidate] at h
    split_ifs at h
  | requiredProperties =>
    simp only [RuleId.checkCandidate, RequiredRootRule.checkCandidate] at h
    split at h
    · cases h
    · split at h <;> cases h
  | entityType | reachability =>
    simp only [RuleId.checkCandidate, EntityTypeRule.checkCandidate,
      ReachabilityRule.checkCandidate] at h
    split at h
    · assumption
    · repeat' split at h
      all_goals cases h

end Right

/-- **Incremental validation is exact.** On a graph that satisfies all rules, the candidate check of
a rule reports a violation exactly when the rule's check fails on the graph after the changes, in
whatever order its rows are read. -/
theorem candidate_violation_iff {graph : GraphId} {base : List Triple} (hbase : base.Nodup)
    (hvalid : ∀ rule : RuleId, rule.checkPostState ⟨graph, base⟩ = .ok ())
    (delta : List MaterializedQuadChange) {rows : List Triple} (hrows : rows.Nodup)
    (hafter : ∀ q, q ∈ rows ↔ q ∈ afterChanges graph {q | q ∈ base} delta) (rule : RuleId) :
    (∃ v, rule.checkCandidate (RuleContext.new graph base delta) = .violation v) ↔
      ∃ v, rule.checkPostState ⟨graph, rows⟩ = .error v := by
  have hheld : rule.Holds graph {q | q ∈ base} :=
    (RuleId.checkPostState_iff (s := ⟨graph, base⟩) hbase rule).mp (hvalid rule)
  have hright : (rule.checkCandidate (RuleContext.new graph base delta)).Right
      (rule.Holds graph (RuleContext.new graph base delta).after) :=
    RuleId.checkCandidate_right hbase (.inr (.inl hheld))
  have hset : (RuleContext.new graph base delta).after = {q | q ∈ rows} := by
    ext q
    rw [after_new]
    exact (hafter q).symm
  rw [hset] at hright
  have hfails : (∃ v, rule.checkPostState ⟨graph, rows⟩ = .error v) ↔
      ¬ rule.Holds graph {q | q ∈ rows} := by
    rw [← RuleId.checkPostState_iff (s := ⟨graph, rows⟩) hrows rule]
    cases rule.checkPostState ⟨graph, rows⟩ <;> simp
  rw [hfails]
  cases hcheck : rule.checkCandidate (RuleContext.new graph base delta) with
  | pass =>
    rw [hcheck] at hright
    exact iff_of_false (by simp) (not_not.mpr hright)
  | violation v =>
    rw [hcheck] at hright
    exact iff_of_true ⟨v, rfl⟩ hright
  | needSnapshot =>
    -- without changes the rule holds as it did before
    have hempty := RuleId.deltaIsEmpty_of_needSnapshot hcheck
    have hsame : {q | q ∈ rows} = {q | q ∈ base} := by
      rw [← hset, after_new, hempty]
      rfl
    exact iff_of_false (by simp) (not_not.mpr (hsame ▸ hheld))

/-! A crate with one part, and a change list that unlinks the part. -/

def sampleChild : EncodedTerm := .fromNamedNode "urn:c".toList

def sampleLink : Triple := ⟨graphRoot sampleGraph, schemaHasPart, sampleChild⟩

/-- The sample crate, as far as rules read it, without the link to its part. -/
def unlinkedCrate : List Triple :=
  [⟨graphRoot sampleGraph, rdfType, schemaDataset⟩,
    ⟨graphRoot sampleGraph, schemaName, ⟨"\"n\"".toList⟩⟩,
    ⟨graphRoot sampleGraph, schemaDescription, ⟨"\"d\"".toList⟩⟩,
    ⟨graphRoot sampleGraph, schemaDatePublished, ⟨"\"2026\"".toList⟩⟩,
    ⟨metadataDescriptor, rdfType, schemaCreativeWork⟩,
    ⟨metadataDescriptor, schemaAbout, graphRoot sampleGraph⟩,
    ⟨sampleChild, rdfType, schemaMediaObject⟩]

set_option maxRecDepth 8000 in
theorem candidate_violation_iff_unlinked :
    ∃ v, RuleId.reachability.checkPostState ⟨sampleGraph, unlinkedCrate⟩ = .error v := by
  have hbase : (sampleLink :: unlinkedCrate).Nodup := by decide +kernel
  have hvalid : ∀ rule : RuleId,
      rule.checkPostState ⟨sampleGraph, sampleLink :: unlinkedCrate⟩ = .ok () := by
    intro rule
    cases rule <;> decide +kernel
  have hafter : ∀ q, q ∈ unlinkedCrate ↔ q ∈ afterChanges sampleGraph
      {q | q ∈ sampleLink :: unlinkedCrate} [.delete sampleGraph sampleLink] := by
    intro q
    have hlink : sampleLink ∉ unlinkedCrate := by decide +kernel
    show q ∈ unlinkedCrate ↔ q ∈ {q | q ∈ sampleLink :: unlinkedCrate} \ {sampleLink}
    rw [Set.mem_sdiff, Set.mem_singleton_iff, Set.mem_ofPred_eq, mem_cons]
    constructor
    · exact fun hq => ⟨.inr hq, fun heq => hlink (heq ▸ hq)⟩
    · exact fun ⟨hq, hne⟩ => hq.resolve_left hne
  refine (candidate_violation_iff hbase hvalid [.delete sampleGraph sampleLink]
    (by decide +kernel) hafter .reachability).mp ⟨.orphaned sampleChild.text [], ?_⟩
  decide +kernel

end Craqle
