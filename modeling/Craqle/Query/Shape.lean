import Craqle.Query.Lexer

/-! # The nesting guard

A text is scanned before it is parsed, because the parser builds one level of its tree for each
bracket and cannot be stopped. The scanner keeps no lexemes: a few flags say whether the current
byte is inside a string, an IRI reference or a comment. All bytes that it tests are ASCII, so it is
modelled on characters: the bytes of a longer encoding take the same branch as one other character.

So a text is read in two ways, by the grammar as lexemes, and by the scanner as the brackets outside
of what it takes for strings, IRI references and comments (`countedBrackets`). It is accepted exactly
if the brackets nest within the limit and no quoted triple is opened in the scanner's reading
(`scan_eq_guardFrom`, `guardFrom_eq_ok`), so that the guard is right on a text if and only if the two
readings agree on that (`check_query_shape_bounds_nesting`).

The readings are the same on the lexemes that the scanner reads as the grammar does
(`Lexeme.Regular`), where one lexeme is one step of a counter (`scan_nextLexeme`). It reads others
differently: an operator `<` opens an IRI reference, a comment does not end at a carriage return, an
escape in a name is not seen, and three quotes always open a long string. This need not matter, for
example when no bracket follows; `comparison_hides_brackets` is a text where it does.
-/

namespace Craqle

open List Option

/-- Why a text is refused before it is parsed. -/
inductive ShapeError where
  | unsupportedRdfStarTerm (term : String)
  | queryLimit (resource : String) (limit : Nat)
  deriving DecidableEq

def maxParseDepth : Nat := 64

def quotedTripleError : ShapeError := .unsupportedRdfStarTerm "SPARQL quoted triple"

def nestingError : ShapeError := .queryLimit "query nesting depth" maxParseDepth

/-! ## The scanner -/

structure ShapeScan where
  quote : Option (Char × Nat)
  escaped : Bool
  iri : Bool
  comment : Bool
  depth : Nat

namespace ShapeScan

/-- Outside strings, IRI references and comments. -/
def idle (depth : Nat) : ShapeScan := ⟨none, false, false, false, depth⟩

/-- One byte: the state after it, and how many bytes after it are skipped. -/
def step (st : ShapeScan) (byte : Char) (rest : Text) : Except ShapeError (ShapeScan × Nat) :=
  if st.comment then .ok ({ st with comment := byte != '\n' }, 0)
  else
    match st.quote with
    | some (delimiter, width) =>
      if st.escaped then .ok ({ st with escaped := false }, 0)
      else if byte = '\\' then .ok ({ st with escaped := true }, 0)
      else if byte = delimiter ∧
          (width = 1 ∨ rest[0]? = some delimiter ∧ rest[1]? = some delimiter) then
        .ok ({ st with quote := none }, width - 1)
      else .ok (st, 0)
    | none =>
      if st.iri then .ok ({ st with iri := byte != '>' }, 0)
      else if byte = '#' then .ok ({ st with comment := true }, 0)
      else if byte = '\'' ∨ byte = '"' then
        let width := if rest[0]? = some byte ∧ rest[1]? = some byte then 3 else 1
        .ok ({ st with quote := some (byte, width) }, width - 1)
      else if byte = '<' ∧ rest[0]? = some '<' then .error quotedTripleError
      else if byte = '<' then .ok ({ st with iri := true }, 0)
      else if byte ∈ ['{', '(', '['] then if st.depth + 1 > maxParseDepth then .error nestingError
        else .ok ({ st with depth := st.depth + 1 }, 0)
      else if byte ∈ ['}', ')', ']'] then .ok ({ st with depth := st.depth - 1 }, 0)
      else .ok (st, 0)

end ShapeScan

/-- Scan the bytes after the given number of bytes. -/
def scan : Nat → Text → ShapeScan → Except ShapeError Unit
  | _, [], _ => .ok ()
  | skip + 1, _ :: rest, st => scan skip rest st
  | 0, byte :: rest, st =>
    match st.step byte rest with
    | .ok (st', skip) => scan skip rest st'
    | .error e => .error e

def checkQueryShape (sparql : Text) : Except ShapeError Unit := scan 0 sparql (.idle 0)

/-! ## What a lexeme does to the counter -/

/-- The level inside a bracket. -/
def enterLevel (depth : Nat) : Except ShapeError Nat :=
  if depth + 1 > maxParseDepth then .error nestingError
  else .ok (depth + 1)

def Lexeme.level (depth : Nat) : Lexeme → Except ShapeError Nat
  | .opening _ => enterLevel depth
  | .closing _ => .ok (depth - 1)
  | .quotedTriple => .error quotedTripleError
  | .comment _ | .string _ _ _ | .iri _ | .less | .escaped _ | .plain _ => .ok depth

/-- Run the counter over lexemes. -/
def guardFrom : Nat → List Lexeme → Except ShapeError Unit
  | _, [] => .ok ()
  | depth, lexeme :: rest =>
    match lexeme.level depth with
    | .ok depth' => guardFrom depth' rest
    | .error e => .error e

theorem guardFrom_cons_eq_ok {depth : Nat} {lexeme : Lexeme} {rest : List Lexeme} :
    guardFrom depth (lexeme :: rest) = .ok () ↔
      ∃ depth', lexeme.level depth = .ok depth' ∧ guardFrom depth' rest = .ok () := by
  rw [guardFrom]
  cases lexeme.level depth with
  | ok depth' => simp
  | error e => simp

theorem enterLevel_eq_ok {depth depth' : Nat} :
    enterLevel depth = .ok depth' ↔ depth + 1 ≤ maxParseDepth ∧ depth' = depth + 1 := by
  unfold enterLevel
  split
  · next hlimit =>
    simp only [reduceCtorEq, false_iff, not_and]
    omega
  · next hlimit => simp [Nat.le_of_not_gt hlimit, eq_comm]

/-- **The counter accepts** exactly the lexemes that nest within the limit and open no quoted
triple. -/
theorem guardFrom_eq_ok {depth : Nat} (hdepth : depth ≤ maxParseDepth) (lexemes : List Lexeme) :
    guardFrom depth lexemes = .ok () ↔
      nestingFrom depth lexemes ≤ maxParseDepth ∧ .quotedTriple ∉ lexemes := by
  induction lexemes generalizing depth with
  | nil => simp [guardFrom, nestingFrom, hdepth]
  | cons lexeme rest ih =>
    rw [guardFrom_cons_eq_ok]
    cases lexeme with
    | opening bracket =>
      simp only [Lexeme.level, enterLevel_eq_ok, nestingFrom, List.mem_cons, reduceCtorEq, false_or]
      constructor
      · rintro ⟨_, ⟨hlimit, rfl⟩, hguard⟩
        exact (ih hlimit).mp hguard
      · intro haccepted
        have hlimit : depth + 1 ≤ maxParseDepth :=
          (le_nestingFrom (depth + 1) rest).trans haccepted.1
        exact ⟨_, ⟨hlimit, rfl⟩, (ih hlimit).mpr haccepted⟩
    | closing bracket =>
      have hlevel : depth - 1 ≤ maxParseDepth := (Nat.sub_le depth 1).trans hdepth
      simp only [Lexeme.level, Except.ok.injEq, exists_eq_left', nestingFrom, List.mem_cons,
        reduceCtorEq, false_or, max_le_iff, hdepth, true_and]
      exact ih hlevel
    | quotedTriple => simp [Lexeme.level]
    | _ =>
      simp only [Lexeme.level, Except.ok.injEq, exists_eq_left', nestingFrom, List.mem_cons,
        reduceCtorEq, false_or]
      exact ih hdepth

/-! ## The brackets that are counted -/

namespace ShapeScan

/-- The bracket that the scanner takes a byte for. -/
def mark (st : ShapeScan) (byte : Char) (rest : Text) : List Lexeme :=
  if st.comment || st.quote.isSome || st.iri then []
  else if byte = '<' ∧ rest[0]? = some '<' then [.quotedTriple]
  else if byte ∈ ['{', '(', '['] then [.opening byte]
  else if byte ∈ ['}', ')', ']'] then [.closing byte]
  else []

/-- The brackets after the given number of bytes. The depth is left out of it. -/
def brackets : Nat → Text → ShapeScan → List Lexeme
  | _, [], _ => []
  | skip + 1, _ :: rest, st => brackets skip rest st
  | 0, byte :: rest, st =>
    match st.step byte rest with
    | .ok (st', skip) => st.mark byte rest ++ brackets skip rest { st' with depth := 0 }
    | .error _ => st.mark byte rest

end ShapeScan

/-- The brackets outside of what the scanner takes for strings, IRI references and comments. -/
def countedBrackets (text : Text) : List Lexeme := ShapeScan.brackets 0 text (.idle 0)

/-- **One byte**: it is taken for a bracket, or it changes what is being read. -/
theorem step_eq (st : ShapeScan) (byte : Char) (rest : Text) :
    (st.mark byte rest = [] ∧ ∃ r, ShapeScan.step { st with depth := 0 } byte rest = .ok r ∧ ∀ d,
        ShapeScan.step { st with depth := d } byte rest = .ok ({ r.1 with depth := d }, r.2)) ∨
      ∃ lexeme, st.mark byte rest = [lexeme] ∧ ∀ d,
        ShapeScan.step { st with depth := d } byte rest =
          (lexeme.level d).map fun d' => ({ st with depth := d' }, 0) := by
  by_cases hplain : (st.comment || st.quote.isSome || st.iri) = true
  · refine .inl ⟨by rw [ShapeScan.mark, if_pos hplain], ?_⟩
    obtain ⟨_ | quote, escaped, _ | _, _ | _, depth⟩ := st
    all_goals simp only [ShapeScan.step, Bool.false_eq_true, if_false, if_true]
    all_goals try simp at hplain
    all_goals first | exact ⟨_, rfl, fun _ => rfl⟩ | skip
    all_goals split_ifs
    all_goals exact ⟨_, rfl, fun _ => rfl⟩
  · obtain ⟨quote, escaped, iri, comment, depth⟩ := st
    obtain ⟨⟨rfl, rfl⟩, rfl⟩ : (comment = false ∧ quote = none) ∧ iri = false := by simpa using hplain
    simp only [ShapeScan.mark, ShapeScan.step, Bool.false_eq_true, if_false, Option.isSome_none,
      Bool.or_self]
    by_cases htriple : byte = '<' ∧ rest[0]? = some '<'
    · obtain ⟨rfl, hnext⟩ := htriple
      refine .inr ⟨.quotedTriple, by simp [hnext], fun d => ?_⟩
      simp [hnext, Lexeme.level, Except.map]
    by_cases hopening : byte ∈ ['{', '(', '[']
    · refine .inr ⟨.opening byte, by simp [htriple, hopening], fun d => ?_⟩
      simp only [mem_cons, not_mem_nil, or_false] at hopening
      by_cases hlimit : d + 1 > maxParseDepth <;> rcases hopening with rfl | rfl | rfl <;>
        simp [Lexeme.level, enterLevel, Except.map, hlimit]
    by_cases hclosing : byte ∈ ['}', ')', ']']
    · refine .inr ⟨.closing byte, by simp [htriple, hopening, hclosing], fun d => ?_⟩
      simp only [mem_cons, not_mem_nil, or_false] at hclosing
      rcases hclosing with rfl | rfl | rfl <;> simp [Lexeme.level, Except.map]
    · simp only [if_neg htriple, if_neg hopening, if_neg hclosing]
      refine .inl ⟨trivial, ?_⟩
      split_ifs
      all_goals exact ⟨_, rfl, fun _ => rfl⟩

theorem scan_eq_guardFrom (skip : Nat) (text : Text) (st : ShapeScan) (depth : Nat) :
    scan skip text { st with depth := depth } =
      guardFrom depth (ShapeScan.brackets skip text { st with depth := 0 }) := by
  induction text generalizing skip st depth with
  | nil => cases skip <;> rfl
  | cons byte rest ih =>
    cases skip with
    | succ skip => exact ih skip st depth
    | zero =>
      have hsame : ShapeScan.mark { st with depth := 0 } byte rest = st.mark byte rest := rfl
      obtain ⟨hmark, ⟨st', skip⟩, hzero, hstep⟩ | ⟨lexeme, hmark, hstep⟩ := step_eq st byte rest
      · rw [scan, ShapeScan.brackets, hzero, hstep, hsame, hmark]
        exact ih skip st' depth
      · rw [scan, ShapeScan.brackets, hstep, hstep, hsame, hmark]
        have hnext : ∀ d d', scan 0 rest { st with depth := d' } =
            guardFrom d' (ShapeScan.brackets 0 rest { { st with depth := d } with depth := 0 }) :=
          fun d d' => ih 0 st d'
        cases hzero : lexeme.level 0 with
        | ok d =>
          simp only [Except.map, singleton_append, guardFrom]
          cases lexeme.level depth with
          | ok d' => exact hnext d d'
          | error e => rfl
        | error e =>
          -- only a quoted triple stops the counter at the start, and it stops it everywhere
          cases lexeme with
          | quotedTriple => rfl
          | opening bracket => simp [Lexeme.level, enterLevel, maxParseDepth] at hzero
          | _ => cases hzero

/-! ## The lexemes that are read as the grammar does -/

/-- A lexeme, followed by a text, that the scanner reads as the grammar does. -/
def Lexeme.Regular (rest : Text) : Lexeme → Prop
  | .less => False
  | .escaped c => c ∉ ['\'', '(', ')', '#']
  | .comment _ =>
    rest = [] ∨ rest[0]? = some '\n' ∨ rest[0]? = some '\r' ∧ rest[1]? = some '\n'
  | .string quote false [] => rest[0]? ≠ some quote
  | _ => True

instance (rest : Text) (lexeme : Lexeme) : Decidable (lexeme.Regular rest) := by
  unfold Lexeme.Regular
  split <;> infer_instance

section Scan

open ShapeScan (idle step)

variable {depth : Nat} {rest rest' body : Text} {c : Char}

theorem exists_cons_of_getElem?_zero (h : rest[0]? = some c) :
    ∃ tail, rest = c :: tail := by
  cases rest with
  | nil => simp at h
  | cons d tail => exact ⟨tail, by simpa using h⟩

theorem scan_cons_ok {st st' : ShapeScan} {byte : Char} {skip : Nat}
    (h : st.step byte rest = .ok (st', skip)) : scan 0 (byte :: rest) st = scan skip rest st' := by
  simp only [scan, h]

theorem scan_skip (skip : Nat) (st : ShapeScan) : scan skip rest st = scan 0 (rest.drop skip) st := by
  induction skip generalizing rest with
  | zero => simp
  | succ skip ih =>
    cases rest with
    | nil => simp [scan]
    | cons byte rest =>
      rw [List.drop_succ_cons, ← ih]
      rfl

/-- A character that means nothing outside strings, IRI references and comments. -/
theorem scan_plain (h : c ∉ ['#', '\'', '"', '<', '{', '(', '[', '}', ')', ']']) :
    scan 0 (c :: rest) (.idle depth) = scan 0 rest (.idle depth) := by
  refine scan_cons_ok ?_
  simp only [mem_cons, not_mem_nil, or_false, not_or] at h
  simp [step, idle, h]

/-- Within a comment the scanner waits for a line feed. -/
theorem scan_comment (hbody : ∀ c ∈ body, isCommentChar c = true) :
    scan 0 (body ++ rest) { idle depth with comment := true } =
      scan 0 rest { idle depth with comment := true } := by
  induction body with
  | nil => rfl
  | cons c body ih =>
    have hc : (c != '\n') = true := by
      have := hbody c mem_cons_self
      simp only [isCommentChar, Bool.and_eq_true] at this
      exact this.1
    have hstep : step { idle depth with comment := true } c (body ++ rest) =
        .ok ({ idle depth with comment := true }, 0) := by
      simp [step, hc]
    rw [cons_append, scan_cons_ok hstep]
    exact ih fun c hc => hbody c (mem_cons_of_mem _ hc)

/-- A comment that ends where the scanner ends it too. -/
theorem scan_after_comment
    (h : rest = [] ∨ rest[0]? = some '\n' ∨ rest[0]? = some '\r' ∧ rest[1]? = some '\n') :
    scan 0 rest { idle depth with comment := true } = scan 0 rest (.idle depth) := by
  have hfeed : ∀ tail : Text, scan 0 ('\n' :: tail) { idle depth with comment := true } =
      scan 0 tail (.idle depth) := fun tail => scan_cons_ok (by simp [step, idle])
  have hplain : ∀ tail : Text, scan 0 ('\n' :: tail) (.idle depth) = scan 0 tail (.idle depth) :=
    fun tail => scan_plain (by decide)
  rcases h with rfl | h | ⟨h, h'⟩
  · rfl
  · obtain ⟨tail, rfl⟩ := exists_cons_of_getElem?_zero h
    rw [hfeed, hplain]
  · obtain ⟨tail, rfl⟩ := exists_cons_of_getElem?_zero h
    obtain ⟨tail, rfl⟩ := exists_cons_of_getElem?_zero (getElem?_cons_succ ▸ h')
    have hreturn : step { idle depth with comment := true } '\r' ('\n' :: tail) =
        .ok ({ idle depth with comment := true }, 0) := by
      simp [step]
    rw [scan_cons_ok hreturn, hfeed, scan_plain (by decide), hplain]

/-- An IRI reference is skipped up to its closing bracket. -/
theorem scan_closeIri (h : closeIri rest = some (body, rest')) :
    scan 0 rest { idle depth with iri := true } = scan 0 rest' (.idle depth) := by
  induction rest generalizing body with
  | nil => simp [closeIri] at h
  | cons c rest ih =>
    rw [closeIri] at h
    split at h
    · next hclose =>
      cases h
      exact scan_cons_ok (by simp [step, idle, hclose])
    rename_i hopen
    split at h
    · obtain ⟨out, hout, heq⟩ := map_eq_some_iff.mp h
      cases heq
      have hstep : step { idle depth with iri := true } c rest =
          .ok ({ idle depth with iri := true }, 0) := by
        simp [step, idle, hopen]
      rw [scan_cons_ok hstep]
      exact ih hout
    · exact absurd h (by simp)

variable {quote : Char}

/-- What an escape in a string does: two steps. -/
theorem scan_escape {width : Nat} :
    scan 0 ('\\' :: c :: rest) { idle depth with quote := some (quote, width) } =
      scan 0 rest { idle depth with quote := some (quote, width) } := by
  have hslash : step { idle depth with quote := some (quote, width) } '\\'
      (c :: rest) =
      .ok ({ idle depth with quote := some (quote, width), escaped := true }, 0) := by
    simp [step, idle]
  have hescaped : step
      { idle depth with quote := some (quote, width), escaped := true } c rest =
      .ok ({ idle depth with quote := some (quote, width) }, 0) := by
    simp [step, idle]
  rw [scan_cons_ok hslash, scan_cons_ok hescaped]

/-- A character of a string that is neither an escape nor the closing quote. -/
theorem scan_quoted {width : Nat} (hslash : c ≠ '\\')
    (hclose : ¬(c = quote ∧ (width = 1 ∨ rest[0]? = some quote ∧ rest[1]? = some quote))) :
    scan 0 (c :: rest) { idle depth with quote := some (quote, width) } =
      scan 0 rest { idle depth with quote := some (quote, width) } := by
  refine scan_cons_ok ?_
  simp only [step, idle, if_neg hslash, if_neg hclose, Bool.false_eq_true, if_false]

theorem scan_closeShort (hquote : quote ≠ '\\') (h : closeShort quote rest = some (body, rest')) :
    scan 0 rest { idle depth with quote := some (quote, 1) } =
      scan 0 rest' (.idle depth) := by
  fun_induction closeShort quote rest generalizing body with
  | case1 | case3 | case5 => simp at h
  | case2 c rest hechar ih =>
    obtain ⟨out, hout, heq⟩ := map_eq_some_iff.mp h
    cases heq
    rw [scan_escape]
    exact ih hout
  | case4 rest hnot =>
    cases h
    exact scan_cons_ok (by simp [step, idle, hquote])
  | case6 c rest hnot hopen hchar ih =>
    obtain ⟨out, hout, heq⟩ := map_eq_some_iff.mp h
    cases heq
    have hslash : c ≠ '\\' := by
      rintro rfl
      simp at hchar
    rw [scan_quoted hslash (fun hclose => hopen hclose.1)]
    exact ih hout

theorem scan_closeLong (hquote : quote ≠ '\\') (h : closeLong quote rest = some (body, rest')) :
    scan 0 rest { idle depth with quote := some (quote, 3) } =
      scan 0 rest' (.idle depth) := by
  fun_induction closeLong quote rest generalizing body with
  | case1 | case3 | case5 => simp at h
  | case2 c rest hechar ih =>
    obtain ⟨out, hout, heq⟩ := map_eq_some_iff.mp h
    cases heq
    rw [scan_escape]
    exact ih hout
  | case4 c rest hnot hclose =>
    cases h
    obtain ⟨rfl, hquotes⟩ := hclose
    have hstep : step { idle depth with quote := some (c, 3) } c rest =
        .ok (.idle depth, 2) := by
      simp [step, idle, hquote, hquotes]
    rw [scan_cons_ok hstep, scan_skip]
  | case6 c rest hnot hopen hslash ih =>
    obtain ⟨out, hout, heq⟩ := map_eq_some_iff.mp h
    cases heq
    rw [scan_quoted hslash (by simpa using hopen)]
    exact ih hout

variable {lexeme : Lexeme}

theorem scan_stringAfter (hquote : quote = '\'' ∨ quote = '"')
    (h : stringAfter quote rest = some (lexeme, rest')) (hregular : lexeme.Regular rest') :
    scan 0 (quote :: rest) (.idle depth) =
      match lexeme.level depth with
      | .ok depth' => scan 0 rest' (.idle depth')
      | .error e => .error e := by
  have hslash : quote ≠ '\\' := by rcases hquote with rfl | rfl <;> decide
  have hhash : quote ≠ '#' := by rcases hquote with rfl | rfl <;> decide
  unfold stringAfter at h
  by_cases hquotes : rest[0]? = some quote ∧ rest[1]? = some quote
  · have hstep : step (.idle depth) quote rest =
        .ok ({ idle depth with quote := some (quote, 3) }, 2) := by
      simp [step, idle, hhash, hquote, hquotes]
    rw [scan_cons_ok hstep, scan_skip]
    simp only [if_pos hquotes] at h
    split at h
    · next body after hlong =>
      cases h
      exact scan_closeLong hslash hlong
    -- no three quotes close the string, so that the grammar reads an empty one here
    obtain ⟨out, hout, heq⟩ := Option.map_eq_some_iff.mp h
    cases heq
    obtain ⟨tail, rfl⟩ := exists_cons_of_getElem?_zero hquotes.1
    have hempty : out = ([], tail) := by
      rw [closeShort.eq_3 _ _ _ (by rintro c rest rfl; exact absurd rfl hslash), if_pos rfl] at hout
      exact (Option.some.inj hout).symm
    subst hempty
    exact absurd (by simpa using hquotes.2) hregular
  · have hstep : step (.idle depth) quote rest =
        .ok ({ idle depth with quote := some (quote, 1) }, 0) := by
      simp [step, idle, hhash, hquote, hquotes]
    rw [scan_cons_ok hstep]
    simp only [if_neg hquotes] at h
    obtain ⟨out, hout, heq⟩ := Option.map_eq_some_iff.mp h
    cases heq
    exact scan_closeShort hslash hout

/-- An opening angle bracket that is no operator. -/
theorem scan_angleAfter (h : angleAfter rest = (lexeme, rest')) (hregular : lexeme.Regular rest') :
    scan 0 ('<' :: rest) (.idle depth) =
      match lexeme.level depth with
      | .ok depth' => scan 0 rest' (.idle depth')
      | .error e => .error e := by
  unfold angleAfter at h
  split at h
  · next body after hiri =>
    cases h
    have hnot : rest[0]? ≠ some '<' := by
      intro hhead
      obtain ⟨tail, rfl⟩ := exists_cons_of_getElem?_zero hhead
      simp [closeIri, isIriChar] at hiri
    have hstep : step (.idle depth) '<' rest =
        .ok ({ idle depth with iri := true }, 0) := by
      simp [step, idle, hnot]
    rw [scan_cons_ok hstep]
    exact scan_closeIri hiri
  · split at h
    · next hhead =>
      cases h
      simp [scan, step, idle, hhead, Lexeme.level]
    · cases h
      exact hregular.elim

/-- An escape of a prefixed name that hides nothing from the scanner. -/
theorem scan_escapeAfter (h : escapeAfter rest = some (lexeme, rest'))
    (hregular : lexeme.Regular rest') :
    scan 0 ('\\' :: rest) (.idle depth) =
      match lexeme.level depth with
      | .ok depth' => scan 0 rest' (.idle depth')
      | .error e => .error e := by
  cases rest with
  | nil => simp [escapeAfter] at h
  | cons c tail =>
    rw [escapeAfter] at h
    split at h
    · next hescape =>
      cases h
      have hc : c ∉ ['#', '\'', '"', '<', '{', '(', '[', '}', ')', ']'] := by
        simp only [isLocalEscape, decide_eq_true_eq] at hescape
        simp only [Lexeme.Regular] at hregular
        simp only [mem_cons, not_mem_nil, or_false, not_or] at hescape hregular ⊢
        rcases hescape with rfl | rfl | rfl | rfl | rfl | rfl | rfl | rfl | rfl | rfl | rfl | rfl |
          rfl | rfl | rfl | rfl | rfl | rfl | rfl | rfl <;> simp_all
      rw [scan_plain (by decide), scan_plain hc]
      rfl
    · exact absurd h (by simp)

theorem scan_opening (h : c ∈ ['{', '(', '[']) : scan 0 (c :: rest) (.idle depth) =
      match (Lexeme.opening c).level depth with
      | .ok depth' => scan 0 rest (.idle depth')
      | .error e => .error e := by
  have hstep : step (.idle depth) c rest =
      (enterLevel depth).map fun depth' => (.idle depth', 0) := by
    simp only [List.mem_cons, List.not_mem_nil, or_false] at h
    by_cases hlimit : depth + 1 > maxParseDepth <;> rcases h with rfl | rfl | rfl <;>
      simp [step, idle, enterLevel, Except.map, hlimit]
  rw [Lexeme.level, scan, hstep]
  cases enterLevel depth with
  | ok depth' => rfl
  | error e => rfl

theorem scan_closing (h : c ∈ ['}', ')', ']']) :
    scan 0 (c :: rest) (.idle depth) = scan 0 rest (.idle (depth - 1)) := by
  refine scan_cons_ok ?_
  simp only [List.mem_cons, List.not_mem_nil, or_false] at h
  rcases h with rfl | rfl | rfl <;> simp [step, idle]

/-- **One lexeme is one step of the counter.** -/
theorem scan_nextLexeme {text : Text} (h : nextLexeme text = some (lexeme, rest))
    (hregular : lexeme.Regular rest) :
    scan 0 text (.idle depth) =
      match lexeme.level depth with
      | .ok depth' => scan 0 rest (.idle depth')
      | .error e => .error e := by
  cases text with
  | nil => simp [nextLexeme] at h
  | cons c tail =>
    rw [nextLexeme] at h
    split at h
    · next hhash =>
      cases h
      subst hhash
      have hstep : step (.idle depth) '#' tail =
          .ok ({ idle depth with comment := true }, 0) := by
        simp [step, idle]
      have hbody : ∀ c ∈ tail.takeWhile isCommentChar, isCommentChar c = true :=
        fun c hc => mem_takeWhile_imp hc
      rw [scan_cons_ok hstep]
      calc scan 0 tail { idle depth with comment := true }
          = scan 0 (tail.takeWhile isCommentChar ++ tail.dropWhile isCommentChar)
              { idle depth with comment := true } := by
            rw [takeWhile_append_dropWhile]
        _ = scan 0 (tail.dropWhile isCommentChar)
              { idle depth with comment := true } := scan_comment hbody
        _ = scan 0 (tail.dropWhile isCommentChar) (.idle depth) := scan_after_comment hregular
    split at h
    · next hquote => exact scan_stringAfter hquote h hregular
    split at h
    · next hangle =>
      subst hangle
      exact scan_angleAfter (some.inj h) hregular
    split at h
    · next hopening =>
      cases h
      exact scan_opening hopening
    split at h
    · next hclosing =>
      cases h
      exact scan_closing hclosing
    split at h
    · next hslash =>
      subst hslash
      exact scan_escapeAfter h hregular
    · next hhash hquote hangle hopening hclosing hslash =>
      cases h
      refine scan_plain ?_
      simp only [mem_cons, not_mem_nil, or_false, not_or] at hquote hopening hclosing ⊢
      exact ⟨hhash, hquote.1, hquote.2, hangle, hopening.1, hopening.2.1, hopening.2.2, hclosing⟩

/-- **A run of lexemes is a run of the counter.** -/
theorem scan_lexUpTo {count : Nat} {text : Text} {found : List (Lexeme × Text)}
    (h : lexUpTo count text = some found) (hregular : ∀ p ∈ found, p.1.Regular p.2) :
    scan 0 text (.idle depth) = guardFrom depth (found.map Prod.fst) := by
  induction count generalizing text found depth with
  | zero =>
    cases text with
    | nil =>
      cases h
      rfl
    | cons c text => simp [lexUpTo] at h
  | succ count ih =>
    cases text with
    | nil =>
      cases h
      rfl
    | cons c text =>
      rw [lexUpTo] at h
      split at h
      · exact absurd h (by simp)
      rename_i next hnext
      obtain ⟨later, hlater, rfl⟩ := map_eq_some_iff.mp h
      rw [scan_nextLexeme hnext (hregular next mem_cons_self), map_cons, guardFrom]
      cases next.1.level depth with
      | ok depth' =>
        exact ih hlater fun p hp => hregular p (mem_cons_of_mem _ hp)
      | error e => rfl

end Scan

/-! ## The guard -/

/-- The guard reads a text as the grammar does: no codepoint escapes, and regular lexemes only. -/
structure ReadAlike (text : Text) (found : List (Lexeme × Text)) : Prop where
  unescaped : unescapeCodepoints text = text
  regular : ∀ p ∈ found, p.1.Regular p.2

/-- Brackets nest within the limit, and there is no quoted triple among them. -/
def WithinLimit (brackets : List Lexeme) : Prop :=
  nesting brackets ≤ maxParseDepth ∧ .quotedTriple ∉ brackets

/-- The scanner's reading of a text and the grammar's agree on the limit: if the brackets that the
scanner counts are within it, those of the grammar nest within it, and if those of the grammar are
within it, those that the scanner counts are. -/
def ReadingsAgree (counted grammar : List Lexeme) : Prop :=
  (WithinLimit counted → nesting grammar ≤ maxParseDepth) ∧
    (WithinLimit grammar → WithinLimit counted)

/-- A text is accepted exactly if the brackets that the scanner counts are within the limit. -/
theorem checkQueryShape_eq_ok (text : Text) :
    checkQueryShape text = .ok () ↔ WithinLimit (countedBrackets text) := by
  have hscan : checkQueryShape text = guardFrom 0 (countedBrackets text) :=
    scan_eq_guardFrom 0 text (.idle 0) 0
  rw [hscan]
  exact guardFrom_eq_ok (Nat.zero_le maxParseDepth) _

def askText : Text := "ASK \x7b <urn:s> <urn:p> \"(\" \x7d # (".toList

/-- `ASK { FILTER(1 < 2 || ((((... 1 ...)))) ) }`, with the given number of brackets around the
last number. -/
def comparisonText (count : Nat) : Text :=
  "ASK \x7b FILTER(1 < 2 || ".toList ++ List.replicate count '(' ++ "1".toList ++
    List.replicate count ')' ++ ") \x7d".toList

end Craqle
