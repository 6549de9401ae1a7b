import Craqle.Core.Batch
import Craqle.Sync.Literal

/-! # The ingress checks

Everything a topic, a caller or a peer hands in is checked before any of it reaches the
store: every term is a complete IRI, literal or blank node in a legal position, the totals
of one envelope are bounded, the adds of a batch carry the batch's own event and its removes
witness nothing beyond the base clock (`checkBatch`), and a snapshot holds no dot its clock
does not cover (`checkSnapshot`).

What the rest of the development uses of a passed check is collected in `checkBatch_ok` and
`checkSnapshot_ok`. A checked term is never one that makes the term parser panic
(`canonicalize_of_checkTerm`).
-/

namespace Craqle

open Fallible
open Std (ExtTreeSet)

def maxTermBytes : Nat := 4 * 1024 * 1024
def maxEnvelopeBytes : Nat := 64 * 1024 * 1024
def maxEnvelopeRows : Nat := 2 ^ 20
def maxEnvelopeDots : Nat := 2 ^ 20
def maxEnvelopeActors : Nat := 2 ^ 16

/-- Which RDF term form an encoded string holds. -/
inductive TermShape where
  | iri
  | blank
  | literal
  deriving DecidableEq

/-- A quad position. -/
inductive Place where
  | subject
  | predicate
  | object
  deriving DecidableEq

namespace Place

/-- The term forms RDF allows in a position. -/
def allows : Place → TermShape → Bool
  | .subject, shape => shape ≠ .literal
  | .predicate, shape => shape = .iri
  | .object, _ => true

end Place

def places : List Place := [.subject, .predicate, .object]

/-- The reasons an envelope is an invalid event. -/
inductive SyncError where
  | rdfStar (text : Text)
  | termTooLong (bytes : Nat)
  | rejected (text : Text)
  | rowLimit
  | byteLimit
  | dotLimit
  | actorLimit
  | illegalPlace (text : Text) (place : Place)
  | dotMismatch (dot identity : Dot)
  | witnessedBeyondBase (dot : Dot)
  | liveWithoutDot
  | repeatedQuad
  | repeatedDot (dot : Dot)
  | uncoveredDot (dot : Dot)
  deriving DecidableEq

/-! ## Terms -/

/-- The body of a text in angle brackets. -/
def iriBody : Text → Option Text
  | '<' :: rest => stripSuffix '>' rest
  | _ => none

/-- Parses a complete term into the form it has. -/
def checkTerm (ox : Oxrdf) (term : EncodedTerm) : Except SyncError TermShape :=
  if term.isRdfStar then .error (.rdfStar term.text)
  else if byteLen term.text > maxTermBytes then .error (.termTooLong (byteLen term.text))
  else
    match iriBody term.text with
    | some body => if iriBodyOk body then .ok .iri else .error (.rejected term.text)
    | none =>
      match term.text with
      | '_' :: ':' :: label =>
        if ox.blankNodeIsOk label then .ok .blank else .error (.rejected term.text)
      | _ => if literalOk term.text then .ok .literal else .error (.rejected term.text)

/-! ## Envelopes -/

/-- The totals of one record or snapshot. The memo of parsed terms is left out: `checkTerm`
is a function of the term. -/
structure Envelope where
  actors : ExtTreeSet ActorId compare
  bytes : Nat
  rows : Nat
  dots : Nat

namespace Envelope

def new : Envelope := ⟨∅, 0, 0, 0⟩

def term (ox : Oxrdf) (e : Envelope) (entry : EncodedTerm × Place) : Except SyncError Envelope :=
  let bytes := e.bytes + byteLen entry.1.text
  if bytes > maxEnvelopeBytes then .error .byteLimit
  else (checkTerm ox entry.1).bind fun shape =>
    if entry.2.allows shape then .ok { e with bytes := bytes }
    else .error (.illegalPlace entry.1.text entry.2)

/-- Validate one quad's three terms in their own positions. -/
def quad (ox : Oxrdf) (e : Envelope) (q : Triple) : Except SyncError Envelope :=
  let e := { e with rows := e.rows + 1 }
  if e.rows > maxEnvelopeRows then .error .rowLimit
  else (q.terms.zip places).foldlM (term ox) e

def limit (e : Envelope) : Except SyncError Envelope :=
  if e.actors.size > maxEnvelopeActors then .error .actorLimit else .ok e

/-- Count the actors one declared context names. -/
def clock (e : Envelope) (c : VectorClock) : Except SyncError Envelope :=
  limit { e with actors := c.entries.keys.foldl (fun actors a => actors.insert a) e.actors }

def dotSet (e : Envelope) (dots : List Dot) : Except SyncError Envelope :=
  if e.dots + dots.length > maxEnvelopeDots then .error .dotLimit
  else limit { e with
    dots := e.dots + dots.length
    actors := dots.foldl (fun actors d => actors.insert d.actor) e.actors }

end Envelope

/-- A graph name must itself be a complete encoded IRI. -/
def checkGraph (ox : Oxrdf) (graph : GraphId) : Except SyncError Unit :=
  (checkTerm ox (EncodedTerm.fromNamedNode graph.iri)).map fun _ => ()

/-- Validate every term a record carries. -/
def checkChanges (ox : Oxrdf) (changes : List MaterializedQuadChange) : Except SyncError Unit :=
  (changes.foldlM (fun (e : Envelope) change => e.quad ox change.quad) Envelope.new).map fun _ => ()

/-- One operation of a batch with the given event and base clock. -/
def checkOp (ox : Oxrdf) (identity : Dot) (base : VectorClock) (e : Envelope) :
    QuadOp → Except SyncError Envelope
  | .add quad dot => do
      let e ← e.quad ox quad
      let e ← e.dotSet [dot]
      if dot = identity then .ok e else .error (.dotMismatch dot identity)
  | .remove quad witnessed => do
      let e ← e.quad ox quad
      let e ← e.clock witnessed
      match missingDots witnessed base with
      | [] => .ok e
      | dot :: _ => .error (.witnessedBeyondBase dot)

/-- Validates an external batch: adds carry its event and removes witness only the declared
base clock. -/
def checkBatch (ox : Oxrdf) (b : Batch) : Except SyncError Unit := do
  checkGraph ox b.graph
  let e ← Envelope.new.clock b.baseClock
  let _ ← b.ops.foldlM (checkOp ox b.identity b.baseClock) e
  .ok ()

/-- One dot of a snapshot row, after those already seen. -/
def checkSnapshotDot (clock : VectorClock) (seen : DotSet) (dot : Dot) :
    Except SyncError DotSet :=
  if dot ∈ seen then .error (.repeatedDot dot)
  else if clock.contains dot then .ok (seen.insert dot)
  else .error (.uncoveredDot dot)

/-- One row of a snapshot, after the quads already seen. -/
def checkSnapshotQuad (ox : Oxrdf) (clock : VectorClock)
    (acc : Envelope × ExtTreeSet Triple compare) (row : SnapshotQuadState) :
    Except SyncError (Envelope × ExtTreeSet Triple compare) := do
  let e ← acc.1.quad ox row.quad
  let e ← e.dotSet row.dots
  if row.dots = [] then .error .liveWithoutDot
  else if row.quad ∈ acc.2 then .error .repeatedQuad
  else
    let _ ← row.dots.foldlM (checkSnapshotDot clock) ∅
    .ok (e, acc.2.insert row.quad)

/-- Rejects snapshots with out-of-context dots, repeated quads, or repeated dots: no replica
can hold that state. -/
def checkSnapshot (ox : Oxrdf) (s : GraphReplicaSnapshot) : Except SyncError Unit := do
  checkGraph ox s.graph
  let e ← Envelope.new.clock s.clock
  let _ ← s.quads.foldlM (checkSnapshotQuad ox s.clock) (e, ∅)
  .ok ()

/-! ## What a passed check says -/

variable {ox : Oxrdf} {shape : TermShape} {t : EncodedTerm}

/-- **The forms of a checked term.** -/
theorem checkTerm_cases (h : checkTerm ox t = .ok shape) :
    (∃ body, t.text = '<' :: (body ++ ['>']) ∧ iriBodyOk body = true ∧ shape = .iri) ∨
    (∃ label, t.text = '_' :: ':' :: label ∧ ox.blankNodeIsOk label = true ∧ shape = .blank) ∨
    (∃ rest suffix, t.text = '"' :: rest ∧ literalBodyOk rest = some suffix ∧
      literalSuffixOk suffix = true ∧ shape = .literal) := by
  obtain ⟨text⟩ := t
  unfold checkTerm at h
  by_cases hstar : (⟨text⟩ : EncodedTerm).isRdfStar = true
  · simp [hstar] at h
  by_cases hlong : byteLen text > maxTermBytes
  · simp [hstar, hlong] at h
  rw [if_neg hstar, if_neg hlong] at h
  simp only at h
  split at h
  · next body hbody =>
    left
    obtain ⟨rest, rfl⟩ : ∃ rest, text = '<' :: rest := by
      unfold iriBody at hbody
      split at hbody
      · exact ⟨_, rfl⟩
      · simp at hbody
    have hstrip : stripSuffix '>' rest = some body := hbody
    obtain ⟨hok, hshape⟩ : iriBodyOk body = true ∧ shape = .iri := by
      split_ifs at h with hok
      exact ⟨hok, (Except.ok.inj h).symm⟩
    exact ⟨body, by rw [eq_append_of_stripSuffix hstrip], hok, hshape⟩
  · split at h
    · right; left
      split_ifs at h with hok
      exact ⟨_, rfl, hok, (Except.ok.inj h).symm⟩
    right; right
    split_ifs at h with hok
    unfold literalOk at hok
    split at hok
    · obtain ⟨suffix, hbody, hsuffix⟩ := (Option.any_eq_true _ _).mp hok
      exact ⟨_, suffix, rfl, hbody, hsuffix, (Except.ok.inj h).symm⟩
    · simp at hok

theorem toTerm_of_checkTerm (h : checkTerm ox t = .ok shape) : ∃ r, t.toTerm = .ok r := by
  obtain ⟨text⟩ := t
  obtain ⟨body, rfl, _⟩ | ⟨label, rfl, _⟩ | ⟨rest, suffix, rfl, hbody, hsuffix, _⟩ :=
    checkTerm_cases h
  · exact ⟨_, toTerm_iri body⟩
  · exact ⟨_, toTerm_blank label⟩
  · rcases valueText_of_literalBodyOk (fun _ => 0) hbody with ⟨w, v, rfl, hvalue⟩ | ⟨hnone, -⟩
    · obtain ⟨l, hl⟩ := exists_suffixText v hsuffix
      exact ⟨_, toTerm_of_literalText (.mk hvalue hl)⟩
    · rw [toTerm_quoted, parseNtriplesLiteral, hnone]
      exact ⟨_, rfl⟩

/-- **Checked terms canonicalize**: the parser's panic is out of reach behind the check. -/
theorem canonicalize_of_checkTerm
    (h : checkTerm ox t = .ok shape) : ∃ t', t.canonicalize ox = .ok t' := by
  obtain ⟨r, hr⟩ := toTerm_of_checkTerm h
  rw [EncodedTerm.canonicalize_eq, hr]
  exact ⟨_, rfl⟩

/-- All three terms of a quad have a term form. -/
def TermsChecked (ox : Oxrdf) (q : Triple) : Prop :=
  ∀ t ∈ q.terms, ∃ shape, checkTerm ox t = .ok shape

theorem Envelope.quad_ok {e e' : Envelope} {q : Triple}
    (h : e.quad ox q = .ok e') : TermsChecked ox q := by
  intro t ht
  unfold Envelope.quad at h
  simp only at h
  split at h
  · simp at h
  obtain ⟨place, hentry⟩ : ∃ place, (t, place) ∈ q.terms.zip places := by
    simp only [Triple.terms, List.mem_cons, List.not_mem_nil, or_false] at ht
    rcases ht with rfl | rfl | rfl
    · exact ⟨.subject, by simp [Triple.terms, places]⟩
    · exact ⟨.predicate, by simp [Triple.terms, places]⟩
    · exact ⟨.object, by simp [Triple.terms, places]⟩
  obtain ⟨before, next, hstep⟩ := foldlM_mem_ok h hentry
  unfold Envelope.term at hstep
  simp only at hstep
  split at hstep
  · simp at hstep
  · cases hterm : checkTerm ox t with
    | error err => simp [hterm, Except.bind] at hstep
    | ok shape => exact ⟨shape, rfl⟩

/-- An operation belongs to its batch: an add carries the batch's event, a remove witnesses
nothing beyond the base clock. -/
def QuadOp.Within (identity : Dot) (base : VectorClock) : QuadOp → Prop
  | .add _ dot => dot = identity
  | .remove _ witnessed => ∀ d, witnessed.contains d = true → base.contains d = true

/-- **A checked batch** has checked terms, and its operations belong to it. -/
theorem checkBatch_ok {b : Batch} (h : checkBatch ox b = .ok ()) :
    ∀ op ∈ b.ops, TermsChecked ox op.quad ∧ op.Within b.identity b.baseClock := by
  intro op hop
  unfold checkBatch at h
  obtain ⟨_, _, h⟩ := bind_eq_ok.mp h
  obtain ⟨e, _, h⟩ := bind_eq_ok.mp h
  obtain ⟨out, hloop, _⟩ := bind_eq_ok.mp h
  obtain ⟨before, next, hstep⟩ := foldlM_mem_ok hloop hop
  cases op with
  | add quad dot =>
    simp only [checkOp] at hstep
    obtain ⟨e₁, hquad, hstep⟩ := bind_eq_ok.mp hstep
    obtain ⟨e₂, _, hstep⟩ := bind_eq_ok.mp hstep
    refine ⟨Envelope.quad_ok hquad, ?_⟩
    by_cases hdot : dot = b.identity
    · exact hdot
    · simp [hdot] at hstep
  | remove quad witnessed =>
    simp only [checkOp] at hstep
    obtain ⟨e₁, hquad, hstep⟩ := bind_eq_ok.mp hstep
    obtain ⟨e₂, _, hstep⟩ := bind_eq_ok.mp hstep
    refine ⟨Envelope.quad_ok hquad, ?_⟩
    cases hmissing : missingDots witnessed b.baseClock with
    | nil => exact missingDots_eq_nil_iff.mp hmissing
    | cons dot rest => simp [hmissing] at hstep

/-- The rows a snapshot check lets through: checked terms, and a non-empty set of dots, each
covered by the clock. -/
structure SnapshotQuadState.Sound (ox : Oxrdf) (clock : VectorClock) (row : SnapshotQuadState) :
    Prop where
  terms : TermsChecked ox row.quad
  nonempty : row.dots ≠ []
  nodup : row.dots.Nodup
  covered : ∀ d ∈ row.dots, clock.contains d = true

theorem foldlM_checkSnapshotDot_ok {clock : VectorClock} {dots : List Dot} {seen out : DotSet}
    (h : dots.foldlM (checkSnapshotDot clock) seen = .ok out) :
    dots.Nodup ∧ ∀ d ∈ dots, clock.contains d = true := by
  have hstep : ∀ (d : Dot) (seen next : DotSet), checkSnapshotDot clock seen d = .ok next →
      d ∉ seen ∧ clock.contains d = true ∧ next = seen.insert d := by
    intro d seen next hnext
    unfold checkSnapshotDot at hnext
    split_ifs at hnext with hseen hcov
    exact ⟨hseen, hcov, (Except.ok.inj hnext).symm⟩
  constructor
  · have hnodup := foldlM_nodup (g := id) (R := fun (seen : DotSet) d => d ∈ seen)
      (fun d seen next hnext => by
        obtain ⟨hseen, _, rfl⟩ := hstep d seen next hnext
        exact ⟨hseen, by simp, fun c hc => (Ordered.mem_insert ..).mpr (.inr hc)⟩) h
    simpa using hnodup.1
  · intro d hd
    obtain ⟨before, next, hnext⟩ := foldlM_mem_ok h hd
    exact (hstep d before next hnext).2.1

theorem checkSnapshotQuad_ok {clock : VectorClock}
    {acc next : Envelope × Std.ExtTreeSet Triple compare} {row : SnapshotQuadState}
    (h : checkSnapshotQuad ox clock acc row = .ok next) :
    row.Sound ox clock ∧ row.quad ∉ acc.2 ∧ next.2 = acc.2.insert row.quad := by
  unfold checkSnapshotQuad at h
  obtain ⟨e₁, hquad, h⟩ := bind_eq_ok.mp h
  obtain ⟨e₂, _, h⟩ := bind_eq_ok.mp h
  by_cases hempty : row.dots = []
  · simp [hempty] at h
  by_cases hdup : row.quad ∈ acc.2
  · simp [hempty, hdup] at h
  simp only [if_neg hempty, if_neg hdup] at h
  obtain ⟨seen, hdots, h⟩ := bind_eq_ok.mp h
  obtain ⟨hnodup, hall⟩ := foldlM_checkSnapshotDot_ok hdots
  have hnext := Except.ok.inj h
  exact ⟨⟨Envelope.quad_ok hquad, hempty, hnodup, hall⟩, hdup, by rw [← hnext]⟩

/-- **A checked snapshot** repeats no quad, and every row of it is sound. -/
theorem checkSnapshot_ok {s : GraphReplicaSnapshot} (h : checkSnapshot ox s = .ok ()) :
    (s.quads.map (·.quad)).Nodup ∧ ∀ row ∈ s.quads, row.Sound ox s.clock := by
  unfold checkSnapshot at h
  obtain ⟨_, _, h⟩ := bind_eq_ok.mp h
  obtain ⟨e, _, h⟩ := bind_eq_ok.mp h
  obtain ⟨out, hloop, _⟩ := bind_eq_ok.mp h
  refine ⟨(foldlM_nodup (R := fun acc q => q ∈ acc.2) (fun row acc next hstep => ?_) hloop).1,
    fun row hrow => ?_⟩
  · obtain ⟨_, hnew, hnext⟩ := checkSnapshotQuad_ok hstep
    rw [hnext]
    exact ⟨hnew, by simp, fun c hc => (Ordered.mem_insert ..).mpr (.inr hc)⟩
  · obtain ⟨before, next, hstep⟩ := foldlM_mem_ok hloop hrow
    exact (checkSnapshotQuad_ok hstep).1

end Craqle
