import Craqle.Lib.Ordered
import Mathlib

/-! # Encoded terms and their canonical spelling

An RDF term travels as its N-Triples text. Several texts can spell one literal, so the store
keys a term by its *canonical* text: the literal is parsed and printed again, with the
language tag in lower case. `canonicalize` is that step as callers use it
(`term.canonical().unwrap_or(term)`).

Strings are lists of characters; a byte length is the sum of the characters' UTF-8 sizes.
Slicing inside a character panics, and that outcome is part of the model (`Panic`).

The printer and the blank node validator belong to the `oxrdf` crate and are parameters
(`Oxrdf`). What is used of the printer is that it writes N-Triples (`Oxrdf.PrintsNTriples`).
The main result is that canonicalization is idempotent (`canonicalize_idem`).
-/

namespace Craqle

open List

open Std (TransOrd TransCmp LawfulEqOrd)

/-- A string as its characters. -/
abbrev Text := List Char

/-- The length of a string in bytes. -/
def byteLen (s : Text) : Nat := (s.map Char.utf8Size).sum

/-- A Rust panic: a string was sliced inside a character, or an addition overflowed. -/
inductive Panic where
  | charBoundary
  | overflow
  deriving DecidableEq

/-! ## Terms -/

/-- An RDF term serialized as a string for transport. -/
structure EncodedTerm where
  text : Text
  deriving DecidableEq

instance : Ord EncodedTerm where
  compare := compareOn EncodedTerm.text

instance : TransOrd EncodedTerm :=
  inferInstanceAs (TransCmp (compareOn EncodedTerm.text))

instance : LawfulEqOrd EncodedTerm where
  eq_of_compare {a b} h := by
    change compare a.text b.text = .eq at h
    rw [Std.compare_eq_iff_eq] at h
    cases a
    cases b
    simp_all

inductive Literal where
  | languageTagged (value language : Text)
  | typed (value datatype : Text)
  deriving DecidableEq

def xsdString : Text := "http://www.w3.org/2001/XMLSchema#string".toList

def Literal.simple (value : Text) : Literal := .typed value xsdString

inductive Term where
  | namedNode (iri : Text)
  | blankNode (label : Text)
  | literal (literal : Literal)
  deriving DecidableEq

/-- The `oxrdf` functions the term layer calls. -/
structure Oxrdf where
  /-- `Literal::to_string` -/
  literalToString : Literal → Text
  /-- `BlankNode::new(label).is_ok()` -/
  blankNodeIsOk : Text → Bool

/-! ## Parsing a literal -/

def hexDigit (c : Char) : Option Nat :=
  if '0' ≤ c ∧ c ≤ '9' then some (c.toNat - '0'.toNat)
  else if 'a' ≤ c ∧ c ≤ 'f' then some (c.toNat - 'a'.toNat + 10)
  else if 'A' ≤ c ∧ c ≤ 'F' then some (c.toNat - 'A'.toNat + 10)
  else none

/-- The value of a digit string, most significant digit first. -/
def hexDigits : Nat → Text → Option Nat
  | n, [] => some n
  | n, c :: cs =>
    match hexDigit c with
    | some d => if n * 16 + d < 2 ^ 32 then hexDigits (n * 16 + d) cs else none
    | none => none

/-- `u32::from_str_radix(_, 16).ok()`: a leading plus sign is accepted. -/
def fromStrRadix16 : Text → Option Nat
  | [] => none
  | '+' :: cs => if cs = [] then none else hexDigits 0 cs
  | cs => hexDigits 0 cs

/-- `&value[..width]`: panics when `width` is not a character boundary. -/
def sliceTo : Text → Nat → Except Panic Text
  | _, 0 => .ok []
  | [], _ + 1 => .error .charBoundary
  | c :: cs, n + 1 =>
    if c.utf8Size ≤ n + 1 then (sliceTo cs (n + 1 - c.utf8Size)).map (c :: ·)
    else .error .charBoundary

def parseHexEscape (value : Text) (width : Nat) : Except Panic (Option Nat) :=
  if byteLen value < width then .ok none
  else (sliceTo value width).map fromStrRadix16

def charFromU32 (n : Nat) : Option Char :=
  if n.isValidChar then some (Char.ofNat n) else none

/-- The single-character escapes. -/
def unescape : Char → Option Char
  | '"' => some '"'
  | '\\' => some '\\'
  | 'n' => some '\n'
  | 'r' => some '\r'
  | 't' => some '\t'
  | 'b' => some '\x08'
  | 'f' => some '\x0c'
  | _ => none

/-- `value.push(ch)` in front of what the rest of the loop pushes. -/
def pushChar (ch : Char) (loop : Except Panic (Option (Text × Text))) :
    Except Panic (Option (Text × Text)) :=
  loop.map (Option.map fun parsed => (ch :: parsed.1, parsed.2))

/-- A code point read by `parse_hex_escape`, as a character. -/
def hexChar (tail : Text) (width : Nat) : Except Panic (Option Char) :=
  (parseHexEscape tail width).map fun code => code.bind charFromU32

/-- The loop of `parse_ntriples_literal` from behind the opening quote: the value up to the
closing quote, and the text behind it. -/
def parseQuoted : Text → Except Panic (Option (Text × Text))
  | [] => .ok none
  | c :: rest =>
    if c = '"' then .ok (some ([], rest))
    else if c = '\\' then
      match rest with
      | [] => .ok none
      | e :: tail =>
        if e = 'u' then
          match hexChar tail 4, tail with
          | .error p, _ => .error p
          | .ok (some ch), _ :: _ :: _ :: _ :: tail' => pushChar ch (parseQuoted tail')
          | .ok _, _ => .ok none
        else if e = 'U' then
          match hexChar tail 8, tail with
          | .error p, _ => .error p
          | .ok (some ch), _ :: _ :: _ :: _ :: _ :: _ :: _ :: _ :: tail' =>
            pushChar ch (parseQuoted tail')
          | .ok _, _ => .ok none
        else
          match unescape e with
          | some ch => pushChar ch (parseQuoted tail)
          | none => .ok none
    else pushChar c (parseQuoted rest)

def stripSuffix (c : Char) (s : Text) : Option Text :=
  if s.getLast? = some c then some s.dropLast else none

/-- What follows the closing quote: a language tag, a datatype, or anything else, which is
ignored. -/
def parseSuffix (value : Text) : Text → Option Literal
  | '@' :: language => some (.languageTagged value language)
  | '^' :: '^' :: '<' :: datatype => (stripSuffix '>' datatype).map (.typed value)
  | _ => some (.simple value)

def parseNtriplesLiteral : Text → Except Panic (Option Literal)
  | '"' :: rest => (parseQuoted rest).map fun parsed => parsed.bind fun p => parseSuffix p.1 p.2
  | _ => .ok none

namespace EncodedTerm

def isRdfStar (t : EncodedTerm) : Bool := "<<".toList.isPrefixOf t.text

/-- An IRI or a blank node has one spelling in N-Triples, so only literals are left to the printer. -/
def fromNamedNode (iri : Text) : EncodedTerm := ⟨'<' :: iri ++ ['>']⟩

/-- Parse back to a term of N-Triples syntax. -/
def toTerm (t : EncodedTerm) : Except Panic (Option Term) :=
  if t.text.head? = some '<' ∧ t.text.getLast? = some '>' then
    .ok (some (.namedNode (t.text.drop 1).dropLast))
  else if t.text.head? = some '"' then
    (parseNtriplesLiteral t.text).map (Option.map Term.literal)
  else if "_:".toList.isPrefixOf t.text then .ok (some (.blankNode (t.text.drop 2)))
  else .ok none

/-- The text `canonical` prints for a literal: a language tag with an upper-case letter is
lowered first. -/
def canonicalText (ox : Oxrdf) : Literal → Text
  | .languageTagged value language =>
    if language.any Char.isUpper then
      ox.literalToString (.languageTagged value (language.map Char.toLower))
    else ox.literalToString (.languageTagged value language)
  | .typed value datatype => ox.literalToString (.typed value datatype)

/-- The `oxrdf` spelling of a literal alias, when it differs from the text at hand. -/
def canonical (ox : Oxrdf) (t : EncodedTerm) : Except Panic (Option EncodedTerm) :=
  t.toTerm.map fun term =>
    match term with
    | some (.literal literal) =>
      if canonicalText ox literal ≠ t.text then some ⟨canonicalText ox literal⟩ else none
    | _ => none

/-- `term.canonical().unwrap_or_else(|| term.clone())` -/
def canonicalize (ox : Oxrdf) (t : EncodedTerm) : Except Panic EncodedTerm :=
  (t.canonical ox).map fun spelling => spelling.getD t

end EncodedTerm

/-! ## What the printer writes is read back -/

/-- The N-Triples spellings of a character between the quotes of a literal. -/
inductive Spells : Text → Char → Prop
  | plain (c : Char) : c ≠ '"' → c ≠ '\\' → Spells [c] c
  | echar (e c : Char) : unescape e = some c → Spells ['\\', e] c
  | uchar (h : Text) (c : Char) : h.length = 4 → (∀ x ∈ h, (hexDigit x).isSome) →
      hexDigits 0 h = some c.toNat → Spells ('\\' :: 'u' :: h) c

/-- The printer writes N-Triples: the value between quotes, every character spelled as
`escape` says, then the language tag, or the datatype unless it is `xsd:string`. -/
structure Oxrdf.PrintsNTriples (ox : Oxrdf) (escape : Char → Text) : Prop where
  spells : ∀ c, Spells (escape c) c
  tagged : ∀ value language, ox.literalToString (.languageTagged value language) =
    '"' :: (value.flatMap escape ++ '"' :: '@' :: language)
  simple : ∀ value, ox.literalToString (.simple value) = '"' :: (value.flatMap escape ++ ['"'])
  typed : ∀ value datatype, datatype ≠ xsdString → ox.literalToString (.typed value datatype) =
    '"' :: (value.flatMap escape ++ '"' :: '^' :: '^' :: '<' :: (datatype ++ ['>']))

/-! A printer of this kind: quotes, backslashes and the named controls by their short escape,
the other controls and the two noncharacters at the end of the first plane by code point,
everything else as it is. -/

def upperHex (n : Nat) : Char := if n < 10 then Char.ofNat (48 + n) else Char.ofNat (55 + n)

/-- The four digits of a code point of the first plane. -/
def upperHex4 (n : Nat) : Text :=
  [upperHex (n / 4096), upperHex (n / 256 % 16), upperHex (n / 16 % 16), upperHex (n % 16)]

def escapeChar (c : Char) : Text :=
  match c with
  | '"' => ['\\', '"']
  | '\\' => ['\\', '\\']
  | '\n' => ['\\', 'n']
  | '\r' => ['\\', 'r']
  | '\t' => ['\\', 't']
  | '\x08' => ['\\', 'b']
  | '\x0c' => ['\\', 'f']
  | c =>
    if c.toNat < 32 ∨ c.toNat = 127 ∨ c.toNat = 0xFFFE ∨ c.toNat = 0xFFFF then
      '\\' :: 'u' :: upperHex4 c.toNat
    else [c]

def printLiteral : Literal → Text
  | .languageTagged value language => '"' :: (value.flatMap escapeChar ++ '"' :: '@' :: language)
  | .typed value datatype =>
    if datatype = xsdString then '"' :: (value.flatMap escapeChar ++ ['"'])
    else '"' :: (value.flatMap escapeChar ++ '"' :: '^' :: '^' :: '<' :: (datatype ++ ['>']))

/-- The blank node labels accepted here are letters and digits. -/
def ntriplesOxrdf : Oxrdf where
  literalToString := printLiteral
  blankNodeIsOk label := label ≠ [] && label.all Char.isAlphanum

theorem hexDigit_upperHex : ∀ n < 16, hexDigit (upperHex n) = some n := by
  decide

/-- The four digits read back as the code point. -/
theorem hexDigits_upperHex4 (n : Nat) (hn : n < 65536) :
    (∀ x ∈ upperHex4 n, (hexDigit x).isSome) ∧ hexDigits 0 (upperHex4 n) = some n := by
  have h₁ : hexDigit (upperHex (n / 4096)) = some (n / 4096) := hexDigit_upperHex _ (by omega)
  have h₂ : hexDigit (upperHex (n / 256 % 16)) = some (n / 256 % 16) :=
    hexDigit_upperHex _ (by omega)
  have h₃ : hexDigit (upperHex (n / 16 % 16)) = some (n / 16 % 16) := hexDigit_upperHex _ (by omega)
  have h₄ : hexDigit (upperHex (n % 16)) = some (n % 16) := hexDigit_upperHex _ (by omega)
  constructor
  · simp [upperHex4, h₁, h₂, h₃, h₄]
  · simp only [upperHex4, hexDigits, h₁, h₂, h₃, h₄]
    repeat rw [if_pos (by omega)]
    exact congrArg some (by omega)

theorem spells_escapeChar (c : Char) : Spells (escapeChar c) c := by
  unfold escapeChar
  split
  case h_8 hquote hslash _ _ _ _ _ =>
    split
    · next hctl =>
      obtain ⟨hdigits, hval⟩ := hexDigits_upperHex4 c.toNat (by omega)
      exact .uchar _ c rfl hdigits hval
    · exact .plain c hquote hslash
  all_goals exact .echar _ _ rfl

theorem ntriplesOxrdf_prints : ntriplesOxrdf.PrintsNTriples escapeChar where
  spells := spells_escapeChar
  tagged _ _ := rfl
  simple value := by
    show printLiteral (.simple value) = _
    rw [Literal.simple, printLiteral, if_pos rfl]
  typed value datatype h := by
    show printLiteral (.typed value datatype) = _
    rw [printLiteral, if_neg h]

variable {c : Char}

theorem toNat_lt_of_hexDigit (h : (hexDigit c).isSome) : c.toNat < 128 := by
  have hle : ∀ d : Char, c ≤ d → d.toNat < 128 → c.toNat < 128 := fun d hd hlt =>
    Nat.lt_of_le_of_lt (UInt32.le_iff_toNat_le.mp (Char.le_def.mp hd)) hlt
  unfold hexDigit at h
  split at h
  · next hc => exact hle '9' hc.2 (by decide)
  split at h
  · next hc => exact hle 'f' hc.2 (by decide)
  split at h
  · next hc => exact hle 'F' hc.2 (by decide)
  · simp at h

theorem utf8Size_of_ascii (h : c.toNat < 128) : c.utf8Size = 1 := by
  refine Char.utf8Size_eq_one_iff.mpr (UInt32.le_iff_toNat_le.mpr ?_)
  have h127 : (127 : UInt32).toNat = 127 := rfl
  have hval : c.val.toNat = c.toNat := rfl
  omega

theorem byteLen_append (s t : Text) : byteLen (s ++ t) = byteLen s + byteLen t := by
  simp [byteLen]

theorem byteLen_cons (c : Char) (s : Text) : byteLen (c :: s) = c.utf8Size + byteLen s := by
  simp [byteLen]

/-- A run of ASCII characters is sliced whole, whatever follows it. -/
theorem sliceTo_ascii (h rest : Text) (hh : ∀ x ∈ h, x.toNat < 128) :
    byteLen h = h.length ∧ sliceTo (h ++ rest) h.length = .ok h := by
  induction h with
  | nil => exact ⟨rfl, by cases rest <;> rfl⟩
  | cons c cs ih =>
    have hsize : c.utf8Size = 1 := utf8Size_of_ascii (hh c mem_cons_self)
    obtain ⟨hlen, hslice⟩ := ih fun x hx => hh x (mem_cons_of_mem _ hx)
    constructor
    · rw [byteLen_cons, hsize, hlen, length_cons]
      omega
    · rw [cons_append, length_cons, sliceTo, if_pos (by omega), hsize,
        Nat.add_sub_cancel, hslice]
      rfl

/-- A text without a leading sign is read as its digits. -/
theorem fromStrRadix16_eq {h : Text} (hpos : h ≠ []) (hplus : h.head? ≠ some '+') :
    fromStrRadix16 h = hexDigits 0 h := by
  unfold fromStrRadix16
  split
  · exact absurd rfl hpos
  · exact absurd rfl hplus
  · rfl

theorem charFromU32_toNat (c : Char) : charFromU32 c.toNat = some c := by
  unfold charFromU32
  have hvalid : c.toNat.isValidChar := c.valid
  rw [if_pos hvalid, Char.ofNat_toNat]

/-- Hexadecimal digits are read as the code point that they are. -/
theorem hexChar_of_digits {h : Text} (rest : Text) (hpos : h ≠ [])
    (hh : ∀ x ∈ h, (hexDigit x).isSome) :
    hexChar (h ++ rest) h.length = .ok ((hexDigits 0 h).bind charFromU32) := by
  obtain ⟨hbytes, hslice⟩ := sliceTo_ascii h rest fun x hx => toNat_lt_of_hexDigit (hh x hx)
  have hlong : ¬ byteLen (h ++ rest) < h.length := by
    rw [byteLen_append]
    omega
  -- a digit string does not start with a sign
  have hplus : h.head? ≠ some '+' := by
    intro hhead
    exact absurd (hh '+' (mem_of_mem_head? hhead)) (by decide)
  unfold hexChar parseHexEscape
  rw [if_neg hlong, hslice]
  simp [Except.map, fromStrRadix16_eq hpos hplus]

theorem hexChar_digits {h : Text} (rest : Text) (hpos : h ≠ [])
    (hh : ∀ x ∈ h, (hexDigit x).isSome) (hval : hexDigits 0 h = some c.toNat) :
    hexChar (h ++ rest) h.length = .ok (some c) := by
  rw [hexChar_of_digits rest hpos hh, hval]
  simp [charFromU32_toNat]

theorem parseQuoted_spelled {w : Text} (hw : Spells w c) (rest : Text) :
    parseQuoted (w ++ rest) = pushChar c (parseQuoted rest) := by
  cases hw with
  | plain c hquote hslash =>
    rw [singleton_append, parseQuoted.eq_def]
    simp only [if_neg hquote, if_neg hslash]
  | echar e c he =>
    have hu : e ≠ 'u' := by
      rintro rfl
      simp [unescape] at he
    have hU : e ≠ 'U' := by
      rintro rfl
      simp [unescape] at he
    have hslash : ¬ '\\' = '"' := by decide
    rw [List.cons_append, List.singleton_append, parseQuoted.eq_def]
    simp only [if_neg hslash, if_true, if_neg hu, if_neg hU, he]
  | uchar h c hlen hh hval =>
    match h, hlen with
    | [a, b, d, e], _ =>
      have hread := hexChar_digits rest (List.cons_ne_nil _ _) hh hval
      simp only [List.cons_append, List.nil_append, List.length_cons, List.length_nil] at hread ⊢
      rw [parseQuoted.eq_def]
      simp [hread]

theorem parseQuoted_flatMap {escape : Char → Text} (hspell : ∀ c, Spells (escape c) c)
    (value rest : Text) :
    parseQuoted (value.flatMap escape ++ '"' :: rest) = .ok (some (value, rest)) := by
  induction value with
  | nil =>
    rw [flatMap_nil, nil_append, parseQuoted.eq_def]
    simp
  | cons c value ih =>
    rw [flatMap_cons, append_assoc, parseQuoted_spelled (hspell c), ih]
    rfl

theorem stripSuffix_append (c : Char) (s : Text) : stripSuffix c (s ++ [c]) = some s := by
  simp [stripSuffix]

section Printing

variable {ox : Oxrdf} {escape : Char → Text}

variable (hox : ox.PrintsNTriples escape)
include hox

/-- **A printed literal parses back to itself.** -/
theorem parseNtriplesLiteral_literalToString (l : Literal) :
    parseNtriplesLiteral (ox.literalToString l) = .ok (some l) := by
  cases l with
  | languageTagged value language =>
    rw [hox.tagged]
    simp only [parseNtriplesLiteral, parseQuoted_flatMap hox.spells]
    rfl
  | typed value datatype =>
    by_cases hdt : datatype = xsdString
    · subst hdt
      have hprint := hox.simple value
      rw [Literal.simple] at hprint
      rw [hprint]
      simp only [parseNtriplesLiteral, parseQuoted_flatMap hox.spells]
      rfl
    · rw [hox.typed value datatype hdt]
      simp only [parseNtriplesLiteral, parseQuoted_flatMap hox.spells, Except.map,
        Option.bind_some, parseSuffix, stripSuffix_append, Option.map_some]

theorem head?_literalToString (l : Literal) :
    (ox.literalToString l).head? = some '"' := by
  cases l with
  | languageTagged value language => rw [hox.tagged]; rfl
  | typed value datatype =>
    by_cases hdt : datatype = xsdString
    · subst hdt
      have hprint := hox.simple value
      rw [Literal.simple] at hprint
      rw [hprint]
      rfl
    · rw [hox.typed value datatype hdt]
      rfl

theorem toTerm_literalToString (l : Literal) :
    (⟨ox.literalToString l⟩ : EncodedTerm).toTerm = .ok (some (.literal l)) := by
  have hhead := head?_literalToString hox l
  unfold EncodedTerm.toTerm
  rw [if_neg (by simp [hhead]), if_pos hhead, parseNtriplesLiteral_literalToString hox]
  rfl

end Printing

/-! ## Canonical texts -/

/-- Language tags are compared in lower case. -/
def Literal.lowerTag : Literal → Literal
  | .languageTagged value language => .languageTagged value (language.map Char.toLower)
  | .typed value datatype => .typed value datatype

@[simp] theorem Literal.lowerTag_lowerTag (l : Literal) : l.lowerTag.lowerTag = l.lowerTag := by
  cases l with
  | languageTagged value language => simp [lowerTag]
  | typed value datatype => rfl

theorem map_toLower_of_not_upper {tag : Text} (h : tag.any Char.isUpper = false) :
    tag.map Char.toLower = tag := by
  refine (List.map_congr_left fun c hc => ?_).trans (List.map_id tag)
  exact Char.toLower_eq_of_not_isUpper (List.any_eq_false.mp h c hc)

theorem canonicalText_eq (ox : Oxrdf) (l : Literal) :
    EncodedTerm.canonicalText ox l = ox.literalToString l.lowerTag := by
  cases l with
  | typed value datatype => rfl
  | languageTagged value language =>
    by_cases hup : language.any Char.isUpper = true
    · simp only [EncodedTerm.canonicalText, if_pos hup, Literal.lowerTag]
    · rw [Literal.lowerTag, map_toLower_of_not_upper (Bool.eq_false_iff.mpr hup)]
      simp only [EncodedTerm.canonicalText, if_neg hup]

namespace EncodedTerm

variable {ox : Oxrdf} {escape : Char → Text} {t t' : EncodedTerm}

variable (ox) in
theorem canonicalize_eq (t : EncodedTerm) :
    t.canonicalize ox = t.toTerm.map fun term =>
      match term with
      | some (.literal l) => ⟨ox.literalToString l.lowerTag⟩
      | _ => t := by
  unfold canonicalize canonical
  cases t.toTerm with
  | error p => rfl
  | ok term =>
    simp only [Except.map, canonicalText_eq]
    congr 1
    match term with
    | none | some (.namedNode _) | some (.blankNode _) => rfl
    | some (.literal l) =>
      by_cases h : ox.literalToString l.lowerTag ≠ t.text
      · simp only [if_pos h, Option.getD_some]
      · simp only [if_neg h, Option.getD_none]
        rw [not_not] at h
        rw [h]

/-- **Canonicalization is idempotent**: a canonical text is its own canonical form, and
reading it again does not panic. -/
theorem canonicalize_idem (hox : ox.PrintsNTriples escape) (h : t.canonicalize ox = .ok t') :
    t'.canonicalize ox = .ok t' := by
  have heq := canonicalize_eq ox t
  rw [h] at heq
  cases hterm : t.toTerm with
  | error p => simp [hterm, Except.map] at heq
  | ok term =>
    simp only [hterm, Except.map, Except.ok.injEq] at heq
    match term with
    | some (.literal l) =>
      rw [heq, canonicalize_eq, toTerm_literalToString hox]
      simp [Except.map]
    | none | some (.namedNode _) | some (.blankNode _) =>
      have ht' : t' = t := heq
      subst ht'
      exact h

/-- An alias is only reported when its text differs. -/
theorem canonical_eq_none (h : t.canonicalize ox = .ok t) : t.canonical ox = .ok none := by
  unfold canonicalize canonical at h
  unfold canonical
  cases hterm : t.toTerm with
  | error p => simp [hterm, Except.map] at h
  | ok term =>
    simp only [hterm, Except.map, Except.ok.injEq] at h ⊢
    split at h
    · next l =>
      split at h
      · next hne => exact absurd (congrArg EncodedTerm.text h) hne
      · next heq => rw [if_neg heq]
    · rfl

theorem canonicalize_literal {l : Literal} (h : t.toTerm = .ok (some (.literal l))) :
    t.canonicalize ox = .ok ⟨ox.literalToString l.lowerTag⟩ := by
  rw [canonicalize_eq, h]
  rfl

end EncodedTerm

/-! ## Terms and their texts -/

/-- The text of a term that is not a quoted triple. -/
def EncodedTerm.fromTerm (ox : Oxrdf) : Term → EncodedTerm
  | .namedNode iri => fromNamedNode iri
  | .blankNode label => ⟨'_' :: ':' :: label⟩
  | .literal l => ⟨ox.literalToString l⟩

theorem toTerm_iri (body : Text) :
    (⟨'<' :: (body ++ ['>'])⟩ : EncodedTerm).toTerm = .ok (some (.namedNode body)) := by
  unfold EncodedTerm.toTerm
  rw [if_pos (by simp [List.getLast?_cons])]
  simp

theorem toTerm_blank (label : Text) :
    (⟨'_' :: ':' :: label⟩ : EncodedTerm).toTerm = .ok (some (.blankNode label)) := rfl

section Encoded

variable {ox : Oxrdf} {escape : Char → Text}

theorem toTerm_fromTerm (hox : ox.PrintsNTriples escape) (x : Term) :
    (EncodedTerm.fromTerm ox x).toTerm = .ok (some x) := by
  cases x with
  | namedNode iri => exact toTerm_iri iri
  | blankNode label => exact toTerm_blank label
  | literal l => exact toTerm_literalToString hox l

/-- **Texts denote terms**: a printed term is read back, canonicalization is idempotent, and the
canonical text of a literal tells it from every other, with tags in lower case. -/
theorem encoded_terms_denote (hox : ox.PrintsNTriples escape) :
    (∀ x, (EncodedTerm.fromTerm ox x).toTerm = .ok (some x)) ∧
    (∀ t t' : EncodedTerm, t.canonicalize ox = .ok t' →
      t'.canonicalize ox = .ok t' ∧ t'.canonical ox = .ok none) ∧
    ∀ (t₁ t₂ : EncodedTerm) (l₁ l₂ : Literal), t₁.toTerm = .ok (some (.literal l₁)) →
      t₂.toTerm = .ok (some (.literal l₂)) →
      (t₁.canonicalize ox = t₂.canonicalize ox ↔ l₁.lowerTag = l₂.lowerTag) := by
  refine ⟨toTerm_fromTerm hox, fun t t' h => ?_, fun t₁ t₂ l₁ l₂ h₁ h₂ => ?_⟩
  · have hidem := EncodedTerm.canonicalize_idem hox h
    exact ⟨hidem, EncodedTerm.canonical_eq_none hidem⟩
  · rw [EncodedTerm.canonicalize_literal h₁, EncodedTerm.canonicalize_literal h₂]
    constructor
    · intro heq
      -- a printed literal is read back, so that its text determines it
      have hread := congrArg (fun t => Except.bind t EncodedTerm.toTerm) heq
      simpa [Except.bind, toTerm_literalToString hox] using hread
    · intro heq
      rw [heq]

theorem encoded_terms_denote_tagged :
    ntriplesOxrdf.PrintsNTriples escapeChar ∧
      ∃ t₁ t₂ : EncodedTerm, t₁.text = "\"\\u0041\"@EN".toList ∧ t₂.text = "\"A\"@en".toList ∧
        t₁.canonicalize ntriplesOxrdf = t₂.canonicalize ntriplesOxrdf := by
  refine ⟨ntriplesOxrdf_prints, ⟨_⟩, ⟨_⟩, rfl, rfl, ?_⟩
  have hread := (encoded_terms_denote ntriplesOxrdf_prints).2.2
  exact (hread _ _ (.languageTagged ['A'] ['E', 'N']) (.languageTagged ['A'] ['e', 'n'])
    (by decide +kernel) (by decide +kernel)).mpr (by decide)

end Encoded

end Craqle
