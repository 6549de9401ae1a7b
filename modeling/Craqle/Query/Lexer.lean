import Craqle.Core.Term

/-! # The lexemes of a SPARQL text

The terminals of the SPARQL 1.1 grammar that decide whether a character is a bracket: comments,
string literals, IRI references, and the escapes of prefixed names. Every other character is a
lexeme of its own, because names, variables, numbers and operators contain no bracket, no quote and
no hash.

Codepoint escapes are replaced before the grammar is applied (`unescapeCodepoints`). The lexeme at a
position is the longest one, so three quotes open a long string only if three quotes close it, and
an angle bracket is an operator where it does not start an IRI reference. Two angle brackets that
start no IRI reference are the opening of a quoted triple.

A text with a quote that closes nowhere or a backslash that escapes nothing has no lexemes.
-/

namespace Craqle

inductive Lexeme where
  | comment (body : Text)
  | string (quote : Char) (long : Bool) (body : Text)
  | iri (body : Text)
  | quotedTriple
  | less
  | opening (bracket : Char)
  | closing (bracket : Char)
  | escaped (c : Char)
  | plain (c : Char)
  deriving DecidableEq

/-! ## Codepoint escapes -/

/-- The character of a codepoint escape at the start of a text, and the width of the escape. -/
def codepointEscape : Text → Option (Char × Nat)
  | '\\' :: 'u' :: rest => ofDigits 4 rest
  | '\\' :: 'U' :: rest => ofDigits 8 rest
  | _ => none
where
  ofDigits (count : Nat) (rest : Text) : Option (Char × Nat) :=
    let digits := rest.take count
    match hexDigits 0 digits with
    | some n => if digits.length = count ∧ n.isValidChar then some (Char.ofNat n, count + 2) else none
    | none => none

/-- Replace the codepoint escapes after the given number of characters. -/
def unescapeFrom : Nat → Text → Text
  | _, [] => []
  | skip + 1, _ :: rest => unescapeFrom skip rest
  | 0, c :: rest =>
    match codepointEscape (c :: rest) with
    | some (escaped, width) => escaped :: unescapeFrom (width - 1) rest
    | none => c :: unescapeFrom 0 rest

def unescapeCodepoints (text : Text) : Text := unescapeFrom 0 text

/-! ## Terminals -/

/-- What may follow a backslash in a string literal (`ECHAR`). -/
def isEchar (c : Char) : Bool := c ∈ ['t', 'b', 'n', 'r', 'f', '\\', '"', '\'']

/-- What may follow a backslash in a prefixed name (`PN_LOCAL_ESC`). -/
def isLocalEscape (c : Char) : Bool :=
  c ∈ ['_', '~', '.', '-', '!', '$', '&', '\'', '(', ')', '*', '+', ',', ';', '=', '/', '?', '#',
    '@', '%']

/-- The characters of an IRI reference. -/
def isIriChar (c : Char) : Bool :=
  decide (0x20 < c.toNat) && !(c ∈ ['<', '>', '"', '{', '}', '|', '^', '\x60', '\\'] : Bool)

/-- The body of a short string, and the text after its closing quote. -/
def closeShort (quote : Char) : Text → Option (Text × Text)
  | [] => none
  | '\\' :: c :: rest =>
    if isEchar c then (closeShort quote rest).map fun out => ('\\' :: c :: out.1, out.2) else none
  | c :: rest =>
    if c = quote then some ([], rest)
    else if c ∈ ['\\', '\n', '\r'] then none
    else (closeShort quote rest).map fun out => (c :: out.1, out.2)

/-- The body of a long string, and the text after its three closing quotes. -/
def closeLong (quote : Char) : Text → Option (Text × Text)
  | [] => none
  | '\\' :: c :: rest =>
    if isEchar c then (closeLong quote rest).map fun out => ('\\' :: c :: out.1, out.2) else none
  | c :: rest =>
    if c = quote ∧ rest[0]? = some quote ∧ rest[1]? = some quote then some ([], rest.drop 2)
    else if c = '\\' then none
    else (closeLong quote rest).map fun out => (c :: out.1, out.2)

/-- The body of an IRI reference, and the text after its closing bracket. -/
def closeIri : Text → Option (Text × Text)
  | [] => none
  | c :: rest =>
    if c = '>' then some ([], rest)
    else if isIriChar c then (closeIri rest).map fun out => (c :: out.1, out.2)
    else none

/-- A comment goes on to the end of its line. -/
def isCommentChar (c : Char) : Bool := c != '\n' && c != '\r'

def stringAfter (quote : Char) (rest : Text) : Option (Lexeme × Text) :=
  let long := if rest[0]? = some quote ∧ rest[1]? = some quote then closeLong quote (rest.drop 2)
    else none
  match long with
  | some (body, rest') => some (.string quote true body, rest')
  | none => (closeShort quote rest).map fun out => (.string quote false out.1, out.2)

/-- What an opening angle bracket is. -/
def angleAfter (rest : Text) : Lexeme × Text :=
  match closeIri rest with
  | some (body, rest') => (.iri body, rest')
  | none => if rest[0]? = some '<' then (.quotedTriple, rest.drop 1) else (.less, rest)

/-- The escape of a prefixed name after a backslash. -/
def escapeAfter : Text → Option (Lexeme × Text)
  | [] => none
  | c :: rest => if isLocalEscape c then some (.escaped c, rest) else none

def nextLexeme : Text → Option (Lexeme × Text)
  | [] => none
  | c :: rest =>
    if c = '#' then some (.comment (rest.takeWhile isCommentChar), rest.dropWhile isCommentChar)
    else if c = '\'' ∨ c = '"' then stringAfter c rest
    else if c = '<' then some (angleAfter rest)
    else if c ∈ ['{', '(', '['] then some (.opening c, rest)
    else if c ∈ ['}', ')', ']'] then some (.closing c, rest)
    else if c = '\\' then escapeAfter rest
    else some (.plain c, rest)

/-- At most the given number of lexemes, each with the text after it. -/
def lexUpTo : Nat → Text → Option (List (Lexeme × Text))
  | _, [] => some []
  | 0, _ :: _ => none
  | count + 1, c :: rest =>
    match nextLexeme (c :: rest) with
    | none => none
    | some next => (lexUpTo count next.2).map (next :: ·)

/-- The lexemes of a text, each with the text after it. A lexeme has a character, so that there are
at most as many as characters. -/
def lexemes (text : Text) : Option (List (Lexeme × Text)) :=
  let unescaped := unescapeCodepoints text
  lexUpTo unescaped.length unescaped

/-! ## Nesting -/

/-- The deepest level that is reached from a level. A closing bracket that closes nothing is
ignored. -/
def nestingFrom : Nat → List Lexeme → Nat
  | depth, [] => depth
  | depth, .opening _ :: rest => nestingFrom (depth + 1) rest
  | depth, .closing _ :: rest => max depth (nestingFrom (depth - 1) rest)
  | depth, _ :: rest => nestingFrom depth rest

/-- The nesting depth of the brackets of a text. -/
def nesting (lexemes : List Lexeme) : Nat := nestingFrom 0 lexemes

theorem le_nestingFrom (depth : Nat) (lexemes : List Lexeme) : depth ≤ nestingFrom depth lexemes := by
  induction lexemes generalizing depth with
  | nil => exact le_rfl
  | cons lexeme rest ih =>
    cases lexeme with
    | opening bracket =>
      have := ih (depth + 1)
      show depth ≤ nestingFrom (depth + 1) rest
      omega
    | closing bracket => exact le_max_left _ _
    | _ => exact ih depth

end Craqle
