import Craqle.Core.Term

/-! # The literal grammar

Two hand-written scanners read N-Triples literals: `literal_ok` in the ingress check, and
`parse_ntriples_literal`, which decodes every stored term, checked or not. The grammar both are
meant for is stated on its own (`LiteralText`), and each of them is compared with it. They differ in
the datatypes they are meant for, which is a parameter of the grammar: the check refuses escapes in
an IRI (`iriBodyOk`), N-Triples allows them (`iriRefOk`).

## What the parser makes of any text

The parser stops at the first escape that it does not know. It panics where the bytes of a code
point escape end inside a character, it reads a sign as the first digit of one, and it ignores or
does not check what follows the closing quote. `readsSoundly` follows it through a text and says
whether one of these happens on the way to an answer. This is exact: the parser answers without a
panic, and with literals of the grammar only, if and only if the text is read soundly
(`toTerm_sound_iff`).
-/

namespace Craqle

open List

/-! ## The scanner of the check -/

/-- Unambiguous N-Triples IRIREF bodies, relative ones included. -/
def iriBodyOk (body : Text) : Bool :=
  body ≠ [] && !body.any fun ch =>
    ch ≤ ' ' || ch ∈ ['<', '>', '"', '\x7b', '\x7d', '|', '^', '\x60', '\\']

/-- N-Triples LANGTAG. -/
def languageOk (tag : Text) : Bool :=
  match tag.splitOn '-' with
  | primary :: parts =>
    primary ≠ [] && primary.all Char.isAlpha &&
      parts.all fun part => part ≠ [] && part.all Char.isAlphanum
  | [] => false

/-- The loop of `literal_ok` from behind the opening quote: the text behind the closing one.
A hexadecimal digit is one byte, so `width` digits are the next `width` bytes. -/
def literalBodyOk : Text → Option Text
  | [] => none
  | next :: rest =>
    if next = '"' then some rest
    else if next = '\\' then
      match rest with
      | [] => none
      | escape :: tail =>
        if escape ∈ ['t', 'b', 'n', 'r', 'f', '"', '\x27', '\\'] then literalBodyOk tail
        else if escape = 'u' then
          match tail with
          | a :: b :: c :: d :: tail' =>
            if [a, b, c, d].all fun x => (hexDigit x).isSome then literalBodyOk tail'
            else none
          | _ => none
        else if escape = 'U' then
          match tail with
          | a :: b :: c :: d :: e :: f :: g :: h :: tail' =>
            if [a, b, c, d, e, f, g, h].all fun x => (hexDigit x).isSome then
              literalBodyOk tail'
            else none
          | _ => none
        else none
    else literalBodyOk rest

/-- Nothing, a language tag, or a datatype in angle brackets. -/
def suffixOk (iri : Text → Bool) : Text → Bool
  | [] => true
  | '@' :: tag => languageOk tag
  | '^' :: '^' :: '<' :: datatype => (stripSuffix '>' datatype).any iri
  | _ => false

/-- What may follow the closing quote. -/
def literalSuffixOk : Text → Bool := suffixOk iriBodyOk

/-- A complete N-Triples literal: a quoted value with legal escapes, then an optional
language tag or datatype and nothing after it. -/
def literalOk : Text → Bool
  | '"' :: rest => (literalBodyOk rest).any literalSuffixOk
  | _ => false

variable {c : Char} {s : Text}

theorem eq_append_of_stripSuffix {body : Text} (h : stripSuffix c s = some body) :
    s = body ++ [c] := by
  unfold stripSuffix at h
  split_ifs at h with hlast
  rw [← Option.some.inj h]
  exact (dropLast_append_getLast? c hlast).symm

/-! ## The grammar -/

/-- The number of digits of a code point escape. -/
def escapeWidth (e : Char) : Nat := if e = 'u' then 4 else if e = 'U' then 8 else 0

/-- The spellings of a character between the quotes. -/
inductive CharText : Text → Char → Prop
  | plain (c : Char) : c ≠ '"' → c ≠ '\\' → CharText [c] c
  | echar (e c : Char) : unescape e = some c → CharText ['\\', e] c
  | uchar (e : Char) (h : Text) (c : Char) : h ≠ [] → h.length = escapeWidth e →
      (∀ x ∈ h, (hexDigit x).isSome) → hexDigits 0 h = some c.toNat → CharText ('\\' :: e :: h) c

/-- The spellings of a value. -/
inductive ValueText : Text → Text → Prop
  | nil : ValueText [] []
  | cons {w s v : Text} {c : Char} : CharText w c → ValueText s v → ValueText (w ++ s) (c :: v)

/-- The body of an N-Triples IRIREF: escapes of code points, and characters but for controls,
spaces and the delimiters. -/
def iriRefOk : Text → Bool
  | [] => true
  | '\\' :: 'u' :: a :: b :: c :: d :: rest =>
    ([a, b, c, d].all fun x => (hexDigit x).isSome) && iriRefOk rest
  | '\\' :: 'U' :: a :: b :: c :: d :: e :: f :: g :: h :: rest =>
    ([a, b, c, d, e, f, g, h].all fun x => (hexDigit x).isSome) && iriRefOk rest
  | ch :: rest =>
    !(ch ≤ ' ' || ch ∈ ['<', '>', '"', '\x7b', '\x7d', '|', '^', '\x60', '\\']) && iriRefOk rest

/-- What follows the closing quote of a literal with the given value. A datatype is kept as it is
written. -/
inductive SuffixText (iri : Text → Bool) (v : Text) : Text → Literal → Prop
  | simple : SuffixText iri v [] (.simple v)
  | tagged {tag : Text} : languageOk tag = true →
      SuffixText iri v ('@' :: tag) (.languageTagged v tag)
  | typed {datatype : Text} : iri datatype = true →
      SuffixText iri v ('^' :: '^' :: '<' :: (datatype ++ ['>'])) (.typed v datatype)

/-- The texts of a literal: the quoted value, then at most one tag or datatype. -/
inductive LiteralText (iri : Text → Bool) : Text → Literal → Prop
  | mk {w v suffix : Text} {l : Literal} : ValueText w v → SuffixText iri v suffix l →
      LiteralText iri ('"' :: (w ++ '"' :: suffix)) l

variable {e : Char}

theorem escapeWidth_cases {h : Text} (hpos : h ≠ [])
    (hlen : h.length = escapeWidth e) : e = 'u' ∧ h.length = 4 ∨ e = 'U' ∧ h.length = 8 := by
  have hlong : 0 < h.length := List.length_pos_of_ne_nil hpos
  unfold escapeWidth at hlen
  split_ifs at hlen with hu hU
  · exact Or.inl ⟨hu, hlen⟩
  · exact Or.inr ⟨hU, hlen⟩
  · omega

variable {w : Text}

theorem spells_charText (h : Spells w c) : CharText w c := by
  cases h with
  | plain c hquote hslash => exact .plain c hquote hslash
  | echar e c he => exact .echar e c he
  | uchar h c hlen hh hval =>
    refine .uchar 'u' h c ?_ hlen hh hval
    rintro rfl
    simp at hlen

/-! ### Both scanners read it -/

theorem unescape_mem (h : unescape e = some c) :
    e ∈ ['t', 'b', 'n', 'r', 'f', '"', '\x27', '\\'] := by
  unfold unescape at h
  split at h
  all_goals first | decide | simp at h

theorem escapeWidth_of_mem (hmem : e ∈ ['t', 'b', 'n', 'r', 'f', '"', '\x27', '\\']) :
    escapeWidth e = 0 := by
  simp only [mem_cons, not_mem_nil, or_false] at hmem
  rcases hmem with rfl | rfl | rfl | rfl | rfl | rfl | rfl | rfl
  all_goals decide

theorem escapeWidth_unescape (h : unescape e = some c) : escapeWidth e = 0 :=
  escapeWidth_of_mem (unescape_mem h)

/-- The parser pushes a code point that is read. -/
theorem parseQuoted_hex {digits rest : Text} (hwide : digits.length = escapeWidth e)
    (hpos : digits ≠ []) (h : hexChar (digits ++ rest) (escapeWidth e) = .ok (some c)) :
    parseQuoted ('\\' :: e :: (digits ++ rest)) = pushChar c (parseQuoted rest) := by
  rcases escapeWidth_cases hpos hwide with ⟨rfl, hfour⟩ | ⟨rfl, height⟩
  · obtain ⟨a, b, d, f, rfl⟩ := length_eq_four.mp hfour
    have h : hexChar (a :: b :: d :: f :: rest) 4 = .ok (some c) := h
    simp only [cons_append, nil_append]
    rw [parseQuoted.eq_def]
    simp [h]
  · rcases digits with _ | ⟨a, _ | ⟨b, _ | ⟨d, _ | ⟨f, tail⟩⟩⟩⟩ <;> try simp at height
    obtain ⟨g, i, j, k, rfl⟩ := length_eq_four.mp height
    have h : hexChar (a :: b :: d :: f :: g :: i :: j :: k :: rest) 8 = .ok (some c) := h
    simp only [cons_append, nil_append]
    rw [parseQuoted.eq_def]
    simp [h]

/-- The parser pushes a spelled character. -/
theorem parseQuoted_charText (hw : CharText w c) (rest : Text) :
    parseQuoted (w ++ rest) = pushChar c (parseQuoted rest) := by
  cases hw with
  | plain c hquote hslash => exact parseQuoted_spelled (.plain c hquote hslash) rest
  | echar e c he => exact parseQuoted_spelled (.echar e c he) rest
  | uchar e h c hpos hlen hh hval =>
    have hread := hexChar_digits rest hpos hh hval
    rw [hlen] at hread
    exact parseQuoted_hex hlen hpos hread

/-- The check passes over a spelled character. -/
theorem literalBodyOk_charText (hw : CharText w c) (rest : Text) :
    literalBodyOk (w ++ rest) = literalBodyOk rest := by
  have hslash : ¬ '\\' = '"' := by decide
  cases hw with
  | plain c hquote hslash' =>
    rw [singleton_append, literalBodyOk.eq_def]
    simp only [if_neg hquote, if_neg hslash']
  | echar e c he =>
    rw [cons_append, singleton_append, literalBodyOk.eq_def]
    simp only [if_neg hslash, if_true, if_pos (unescape_mem he)]
  | uchar e h c hpos hlen hh hval =>
    have hall : h.all (fun x => (hexDigit x).isSome) = true := all_eq_true.mpr hh
    rcases escapeWidth_cases hpos hlen with ⟨rfl, hfour⟩ | ⟨rfl, height⟩
    · match h, hfour with
      | [a, b, d, e], _ =>
        have hmem : ¬ 'u' ∈ ['t', 'b', 'n', 'r', 'f', '"', '\x27', '\\'] := by decide
        simp only [List.cons_append, List.nil_append]
        rw [literalBodyOk.eq_def]
        simp only [if_neg hslash, if_true, if_neg hmem, if_pos hall]
    · match h, height with
      | [a, b, d, e, f, g, i, j], _ =>
        have hmem : ¬ 'U' ∈ ['t', 'b', 'n', 'r', 'f', '"', '\x27', '\\'] := by decide
        have hu : ¬ 'U' = 'u' := by decide
        simp only [cons_append, nil_append]
        rw [literalBodyOk.eq_def]
        simp only [if_neg hslash, if_true, if_neg hmem, if_neg hu, if_pos hall]

variable {v : Text}

theorem parseQuoted_valueText (h : ValueText w v) (rest : Text) :
    parseQuoted (w ++ '"' :: rest) = .ok (some (v, rest)) := by
  induction h with
  | nil =>
    rw [List.nil_append, parseQuoted.eq_def]
    simp
  | cons hw _ ih =>
    rw [List.append_assoc, parseQuoted_charText hw, ih]
    rfl

theorem literalBodyOk_valueText (h : ValueText w v) (rest : Text) :
    literalBodyOk (w ++ '"' :: rest) = some rest := by
  induction h with
  | nil =>
    rw [nil_append, literalBodyOk.eq_def]
    simp only [if_true]
  | cons hw _ ih => rw [append_assoc, literalBodyOk_charText hw, ih]

variable {suffix : Text} {l : Literal} {iri : Text → Bool}

theorem parseSuffix_suffixText (h : SuffixText iri v suffix l) :
    parseSuffix v suffix = some l := by
  cases h with
  | simple => rfl
  | tagged _ => rfl
  | typed _ => simp [parseSuffix, stripSuffix_append]

theorem suffixOk_suffixText (h : SuffixText iri v suffix l) : suffixOk iri suffix = true := by
  cases h with
  | simple => rfl
  | tagged htag => exact htag
  | typed hiri => simp [suffixOk, stripSuffix_append, hiri]

/-- What is accepted behind the quote is a suffix of the grammar. -/
theorem exists_suffixText (v : Text) (h : suffixOk iri suffix = true) :
    ∃ l, SuffixText iri v suffix l := by
  unfold suffixOk at h
  split at h
  · exact ⟨_, .simple⟩
  · exact ⟨_, .tagged h⟩
  · obtain ⟨datatype, hstrip, hiri⟩ := (Option.any_eq_true _ _).mp h
    rw [eq_append_of_stripSuffix hstrip]
    exact ⟨_, .typed hiri⟩
  · simp at h

theorem toTerm_quoted (rest : Text) :
    (⟨'"' :: rest⟩ : EncodedTerm).toTerm =
      (parseNtriplesLiteral ('"' :: rest)).map (Option.map Term.literal) := rfl

/-- **The parser reads every text of the grammar**, as the literal it spells. -/
theorem toTerm_of_literalText {text : Text} (h : LiteralText iri text l) :
    (⟨text⟩ : EncodedTerm).toTerm = .ok (some (.literal l)) := by
  obtain ⟨hvalue, hsuffix⟩ := h
  rw [toTerm_quoted]
  simp only [parseNtriplesLiteral, parseQuoted_valueText hvalue, Except.map, Option.bind_some,
    parseSuffix_suffixText hsuffix, Option.map_some]

theorem literalOk_of_literalText {text : Text} (h : LiteralText iriBodyOk text l) :
    literalOk text = true := by
  obtain ⟨hvalue, hsuffix⟩ := h
  simp [literalOk, literalSuffixOk, literalBodyOk_valueText hvalue, suffixOk_suffixText hsuffix]

/-! ## Reading a text escape by escape -/

/-- Induction on a text as the scanners read it: an escape takes several characters at once. -/
@[elab_as_elim]
theorem scan_induction {motive : Text → Prop} (s : Text) (nil : motive [])
    (quote : ∀ rest, motive ('"' :: rest)) (lone : motive ['\\'])
    (escape : ∀ e tail, (∀ s : Text, s.length ≤ tail.length → motive s) →
      motive ('\\' :: e :: tail))
    (plain : ∀ c rest, c ≠ '"' → c ≠ '\\' → motive rest → motive (c :: rest)) : motive s := by
  induction hlen : s.length using Nat.strong_induction_on generalizing s with
  | _ n ih =>
    subst hlen
    match s with
    | [] => exact nil
    | c :: rest =>
      by_cases hquote : c = '"'
      · subst hquote
        exact quote rest
      by_cases hslash : c = '\\'
      · subst hslash
        match rest with
        | [] => exact lone
        | e :: tail => exact escape e tail fun s hs => ih s.length (by simp; omega) s rfl
      · exact plain c rest hquote hslash (ih rest.length (by simp) rest rfl)

/-- The check's step over an escape: a letter of its list, or a code point in digits. -/
theorem literalBodyOk_escape {tail : Text} (h : literalBodyOk ('\\' :: e :: tail) = some suffix) :
    (e ∈ ['t', 'b', 'n', 'r', 'f', '"', '\x27', '\\'] ∧ literalBodyOk tail = some suffix) ∨
    ∃ digits rest, tail = digits ++ rest ∧ digits ≠ [] ∧ digits.length = escapeWidth e ∧
      (∀ x ∈ digits, (hexDigit x).isSome) ∧ literalBodyOk rest = some suffix := by
  have hslash : ¬ '\\' = '"' := by decide
  rw [literalBodyOk.eq_def] at h
  simp only [if_neg hslash, if_true] at h
  split_ifs at h with hmem hu hU
  · exact Or.inl ⟨hmem, h⟩
  · right
    subst hu
    split at h
    · next a b c d rest =>
      split_ifs at h with hall
      exact ⟨[a, b, c, d], rest, rfl, cons_ne_nil _ _, rfl, all_eq_true.mp hall, h⟩
    · simp at h
  · right
    subst hU
    split at h
    · next a b c d e f g i rest =>
      split_ifs at h with hall
      exact ⟨[a, b, c, d, e, f, g, i], rest, rfl, cons_ne_nil _ _, rfl, all_eq_true.mp hall, h⟩
    · simp at h

/-! ## Code point escapes -/

theorem hexDigit_of_hexDigits {n code : Nat} (h : hexDigits n s = some code) :
    ∀ x ∈ s, (hexDigit x).isSome := by
  induction s generalizing n with
  | nil => simp
  | cons c s ih =>
    unfold hexDigits at h
    split at h
    · next d hd =>
      split_ifs at h with hsmall
      intro x hx
      rcases mem_cons.mp hx with rfl | hx
      · rw [hd]
        rfl
      · exact ih h x hx
    · simp at h

theorem toNat_of_charFromU32 {code : Nat} (h : charFromU32 code = some c) :
    c.toNat = code := by
  unfold charFromU32 at h
  split_ifs at h with hvalid
  rw [← Option.some.inj h, Char.toNat_ofNat, if_pos hvalid]

/-- A slice is a prefix of as many bytes. -/
theorem sliceTo_ok {t : Text} {n : Nat} (h : sliceTo t n = .ok s) :
    ∃ rest, t = s ++ rest ∧ byteLen s = n := by
  induction t generalizing n s with
  | nil =>
    cases n with
    | zero =>
      cases h
      exact ⟨[], rfl, rfl⟩
    | succ n => cases h
  | cons c t ih =>
    cases n with
    | zero =>
      cases h
      exact ⟨c :: t, rfl, rfl⟩
    | succ n =>
      rw [sliceTo] at h
      split at h
      · next hfits =>
        cases hslice : sliceTo t (n + 1 - c.utf8Size) with
        | error p => simp [hslice, Except.map] at h
        | ok s' =>
          simp only [hslice, Except.map, Except.ok.injEq] at h
          subst h
          obtain ⟨rest, rfl, hlen⟩ := ih hslice
          exact ⟨rest, rfl, by rw [byteLen_cons, hlen]; omega⟩
      · cases h

/-- **A code point that is read** is spelled by as many characters as bytes were asked for: a sign
and digits, or digits. -/
theorem hexChar_eq_some {tail : Text} {n : Nat} (h : hexChar tail n = .ok (some c)) :
    ∃ digits rest, tail = digits ++ rest ∧ digits.length = n ∧
      (digits.head? = some '+' ∨
        (∀ x ∈ digits, (hexDigit x).isSome) ∧ hexDigits 0 digits = some c.toNat) := by
  unfold hexChar parseHexEscape at h
  split at h
  · cases h
  cases hslice : sliceTo tail n with
  | error p => simp [hslice, Except.map] at h
  | ok digits =>
    obtain ⟨rest, rfl, hbytes⟩ := sliceTo_ok hslice
    simp only [hslice, Except.map, Except.ok.injEq, Option.bind_eq_some_iff] at h
    obtain ⟨code, hcode, hchar⟩ := h
    refine ⟨digits, rest, rfl, ?_, ?_⟩
    · -- whatever is read is ASCII, so that characters are bytes
      have hascii : ∀ x ∈ digits, x.toNat < 128 := by
        unfold fromStrRadix16 at hcode
        split at hcode
        · simp
        · split at hcode
          · cases hcode
          · intro x hx
            rcases mem_cons.mp hx with rfl | hx
            · decide
            · exact toNat_lt_of_hexDigit (hexDigit_of_hexDigits hcode x hx)
        · exact fun x hx => toNat_lt_of_hexDigit (hexDigit_of_hexDigits hcode x hx)
      rw [← (sliceTo_ascii digits [] hascii).1, hbytes]
    · refine or_iff_not_imp_left.mpr fun hplus => ?_
      have hpos : digits ≠ [] := by
        rintro rfl
        cases hcode
      rw [fromStrRadix16_eq hpos hplus] at hcode
      exact ⟨hexDigit_of_hexDigits hcode, by rw [hcode, toNat_of_charFromU32 hchar]⟩

/-- The parser stops at an escape whose code point cannot be sliced, with the panic, or is not read. -/
theorem parseQuoted_unread {tail : Text} {r : Except Panic (Option Char)}
    (hwide : escapeWidth e ≠ 0) (h : hexChar tail (escapeWidth e) = r)
    (hr : ∀ ch, r ≠ .ok (some ch)) : parseQuoted ('\\' :: e :: tail) = r.map fun _ => none := by
  have hslash : ¬ '\\' = '"' := by decide
  rw [parseQuoted.eq_def]
  unfold escapeWidth at hwide h
  rcases r with p | _ | ch
  case ok.some => exact absurd rfl (hr ch)
  all_goals
    split_ifs at hwide h with hu hU
    · simp only [if_neg hslash, if_true, if_pos hu, h, Except.map]
    · simp only [if_neg hslash, if_true, if_neg hu, if_pos hU, h, Except.map]
    · exact absurd rfl hwide

theorem parseQuoted_unknown (tail : Text) (hwide : escapeWidth e = 0)
    (h : unescape e = none) : parseQuoted ('\\' :: e :: tail) = .ok none := by
  have hslash : ¬ '\\' = '"' := by decide
  rw [parseQuoted.eq_def]
  unfold escapeWidth at hwide
  split_ifs at hwide with hu hU
  simp only [if_neg hslash, if_true, if_neg hu, if_neg hU, h]

/-! ## Terms that were never checked -/

/-- What the parser makes of an escape. -/
inductive EscapeReading where
  /-- The letter is unknown, or the next bytes are no code point of a character. -/
  | refused
  /-- The bytes of the code point end inside a character. -/
  | split
  /-- A code point whose first digit is a plus sign. -/
  | signed
  | read
  deriving DecidableEq

def readEscape (e : Char) (tail : Text) : EscapeReading :=
  if escapeWidth e = 0 then if (unescape e).isSome then .read else .refused
  else
    match hexChar tail (escapeWidth e) with
    | .error _ => .split
    | .ok none => .refused
    | .ok (some _) => if tail.head? = some '+' then .signed else .read

/-- A datatype that does not end is refused; everything else behind the closing quote is taken. -/
def suffixRefused : Text → Bool
  | '^' :: '^' :: '<' :: datatype => (stripSuffix '>' datatype).isNone
  | _ => false

/-- Follows the parser behind the opening quote, with the number of digits to skip: it meets no
escape that is split, and if it gets to the closing quote and does not refuse what comes behind it,
no escape was signed and N-Triples allows what comes there. -/
def readsSoundly : (signed : Bool) → (skip : Nat) → Text → Bool
  | _, _, [] => true
  | signed, n + 1, _ :: rest => readsSoundly signed n rest
  | signed, 0, c :: rest =>
    if c = '"' then suffixRefused rest || !signed && suffixOk iriRefOk rest
    else if c = '\\' then
      match rest with
      | [] => true
      | e :: tail =>
        match readEscape e tail with
        | .refused => true
        | .split => false
        | .signed => readsSoundly true (escapeWidth e) tail
        | .read => readsSoundly signed (escapeWidth e) tail
    else readsSoundly signed 0 rest

/-- **The condition on a text**: it is no quoted text, or it is read soundly. -/
def EncodedTerm.ReadSoundly (t : EncodedTerm) : Prop :=
  ∀ rest, t.text = '"' :: rest → readsSoundly false 0 rest = true

variable {signed : Bool}

theorem readsSoundly_skip (h rest : Text) :
    readsSoundly signed h.length (h ++ rest) = readsSoundly signed 0 rest := by
  induction h with
  | nil => rfl
  | cons c h ih => exact ih

theorem readsSoundly_quote (rest : Text) : readsSoundly signed 0 ('"' :: rest) =
    (suffixRefused rest || !signed && suffixOk iriRefOk rest) := by
  rw [readsSoundly.eq_def]
  simp

theorem readsSoundly_escape (e : Char) (tail : Text) :
    readsSoundly signed 0 ('\\' :: e :: tail) =
      match readEscape e tail with
      | .refused => true
      | .split => false
      | .signed => readsSoundly true (escapeWidth e) tail
      | .read => readsSoundly signed (escapeWidth e) tail := by
  have hslash : ¬ '\\' = '"' := by decide
  rw [readsSoundly.eq_def]
  simp only [if_neg hslash, if_true]

theorem readsSoundly_plain (rest : Text) (hquote : c ≠ '"') (hslash : c ≠ '\\') :
    readsSoundly signed 0 (c :: rest) = readsSoundly signed 0 rest := by
  rw [readsSoundly.eq_def]
  simp only [if_neg hquote, if_neg hslash]

/-- **The parser's answer on a text, and whether it is read soundly**: nothing; a panic; a value of
the grammar; or a value that is not of the grammar. -/
inductive QuotedAnswer (signed : Bool) (s : Text) : Prop
  | nothing : parseQuoted s = .ok none → readsSoundly signed 0 s = true → QuotedAnswer signed s
  | panics (p : Panic) : parseQuoted s = .error p → readsSoundly signed 0 s = false →
      QuotedAnswer signed s
  | spelled (w v suffix : Text) : s = w ++ '"' :: suffix → ValueText w v →
      readsSoundly signed 0 s = (suffixRefused suffix || !signed && suffixOk iriRefOk suffix) →
      QuotedAnswer signed s
  | misread (v suffix : Text) : parseQuoted s = .ok (some (v, suffix)) → literalBodyOk s = none →
      readsSoundly signed 0 s = suffixRefused suffix → QuotedAnswer signed s

/-- A spelled character in front does not change the kind of answer. -/
theorem QuotedAnswer.cons (hw : CharText w c)
    (hsound : readsSoundly signed 0 (w ++ s) = readsSoundly signed 0 s) (h : QuotedAnswer signed s) :
    QuotedAnswer signed (w ++ s) := by
  have hparse := parseQuoted_charText hw s
  cases h with
  | nothing hnone hread => exact .nothing (by rw [hparse, hnone]; rfl) (hsound.trans hread)
  | panics p herror hread => exact .panics p (by rw [hparse, herror]; rfl) (hsound.trans hread)
  | spelled w' v suffix heq hvalue hread =>
    exact .spelled (w ++ w') (c :: v) suffix (by rw [heq, append_assoc]) (.cons hw hvalue)
      (hsound.trans hread)
  | misread v suffix hvalue hbody hread =>
    exact .misread (c :: v) suffix (by rw [hparse, hvalue]; rfl)
      (by rw [literalBodyOk_charText hw, hbody]) (hsound.trans hread)

/-- Behind a signed escape every value is misread. -/
theorem QuotedAnswer.behind_sign {s' : Text} (hparse : parseQuoted s' = pushChar c (parseQuoted s))
    (hbody : literalBodyOk s' = none)
    (hsound : readsSoundly signed 0 s' = readsSoundly true 0 s) (h : QuotedAnswer true s) :
    QuotedAnswer signed s' := by
  cases h with
  | nothing hnone hread => exact .nothing (by rw [hparse, hnone]; rfl) (hsound.trans hread)
  | panics p herror hread => exact .panics p (by rw [hparse, herror]; rfl) (hsound.trans hread)
  | spelled w v suffix heq hvalue hread =>
    refine .misread (c :: v) suffix ?_ hbody (by rw [hsound, hread]; simp)
    rw [hparse, heq, parseQuoted_valueText hvalue]
    rfl
  | misread v suffix hvalue _ hread =>
    exact .misread (c :: v) suffix (by rw [hparse, hvalue]; rfl) hbody (hsound.trans hread)

theorem quotedAnswer (signed : Bool) (s : Text) : QuotedAnswer signed s := by
  induction s using scan_induction generalizing signed with
  | nil | lone => exact .nothing rfl rfl
  | quote rest => exact .spelled [] [] rest rfl .nil (readsSoundly_quote rest)
  | plain c rest hquote hslash ih =>
    exact (ih signed).cons (.plain c hquote hslash) (readsSoundly_plain rest hquote hslash)
  | escape e tail ih =>
    have hsound : readsSoundly signed 0 ('\\' :: e :: tail) = _ := readsSoundly_escape e tail
    by_cases hwide : escapeWidth e = 0
    · rw [readEscape, if_pos hwide] at hsound
      cases hch : unescape e with
      | none => exact .nothing (parseQuoted_unknown tail hwide hch) (by simpa [hch] using hsound)
      | some ch =>
        refine (ih tail le_rfl signed).cons (.echar e ch hch) ?_
        simpa [hch, hwide] using hsound
    rw [readEscape, if_neg hwide] at hsound
    match hhex : hexChar tail (escapeWidth e) with
    | .error p =>
      exact .panics p (parseQuoted_unread hwide hhex nofun) (by simpa [hhex] using hsound)
    | .ok none =>
      exact .nothing (parseQuoted_unread hwide hhex (by simp)) (by simpa [hhex] using hsound)
    | .ok (some ch) =>
      obtain ⟨digits, rest, rfl, hlength, hdigits⟩ := hexChar_eq_some hhex
      have hpos : digits ≠ [] := by
        rintro rfl
        exact hwide hlength.symm
      have hhead : (digits ++ rest).head? = digits.head? := head?_append_of_ne_nil _ hpos
      rw [hhex] at hsound
      simp only [hhead, ← hlength, readsSoundly_skip] at hsound
      have hshort : rest.length ≤ (digits ++ rest).length := by simp
      rcases hdigits with hplus | ⟨hdigit, hvalue⟩
      · refine (ih rest hshort true).behind_sign (parseQuoted_hex hlength hpos hhex) ?_
          (by simpa [hplus] using hsound)
        -- a sign is no digit
        refine Option.eq_none_iff_forall_ne_some.mpr fun suffix hbody => ?_
        rcases literalBodyOk_escape hbody with ⟨hmem, -⟩ | ⟨digits', rest', heq, -, hwidth, hdigits, -⟩
        · exact hwide (escapeWidth_of_mem hmem)
        · obtain ⟨rfl, -⟩ := append_inj heq (hlength.trans hwidth.symm)
          exact absurd (hdigits '+' (mem_of_mem_head? hplus)) (by decide)
      · have hplus : digits.head? ≠ some '+' := fun hplus =>
          absurd (hdigit '+' (mem_of_mem_head? hplus)) (by decide)
        exact (ih rest hshort signed).cons (.uchar e digits ch hpos hlength hdigit hvalue)
          (by simpa [hplus] using hsound)

/-! ### Suffixes -/

theorem parseSuffix_eq_none_iff : parseSuffix v suffix = none ↔ suffixRefused suffix = true := by
  unfold parseSuffix suffixRefused
  split
  · simp
  · simp
  · simp

/-- The suffix of a text of the grammar is the one that the check finds. -/
theorem suffixOk_of_literalText {rest : Text} (h : LiteralText iri ('"' :: rest) l) :
    ∃ suffix, literalBodyOk rest = some suffix ∧ suffixOk iri suffix = true := by
  cases h with
  | mk hvalue hsuffix => exact ⟨_, literalBodyOk_valueText hvalue _, suffixOk_suffixText hsuffix⟩

/-- The literal that is read is of the grammar if its suffix is. -/
theorem suffixText_of_parseSuffix (hparse : parseSuffix v suffix = some l)
    (hok : suffixOk iri suffix = true) : SuffixText iri v suffix l := by
  obtain ⟨l', hl'⟩ := exists_suffixText v hok
  rw [parseSuffix_suffixText hl'] at hparse
  cases hparse
  exact hl'

theorem toTerm_ne_literal {t : EncodedTerm} (h : ∀ rest, t.text ≠ '"' :: rest) :
    ∃ r, t.toTerm = .ok r ∧ ∀ l, r ≠ some (.literal l) := by
  have hquote : ¬ t.text.head? = some '"' := by
    intro hquote
    obtain ⟨rest, hrest⟩ := List.head?_eq_some_iff.mp hquote
    exact h rest hrest
  unfold EncodedTerm.toTerm
  split_ifs
  · exact ⟨_, rfl, by simp⟩
  · exact ⟨_, rfl, by simp⟩
  · exact ⟨_, rfl, by simp⟩

/-- Reading a term does not panic, and gives a literal only where N-Triples has one. -/
structure EncodedTerm.Sound (ox : Oxrdf) (t : EncodedTerm) : Prop where
  term : ∃ r, t.toTerm = .ok r
  canonical : ∃ r, t.canonical ox = .ok r
  literal : ∀ l, t.toTerm = .ok (some (.literal l)) → LiteralText iriRefOk t.text l
  spelling : ∀ t', t.canonical ox = .ok (some t') → ∃ l, LiteralText iriRefOk t.text l

theorem EncodedTerm.sound_iff (ox : Oxrdf) {t : EncodedTerm} {r : Option Term}
    (h : t.toTerm = .ok r) :
    t.Sound ox ↔ ∀ l, r = some (.literal l) → LiteralText iriRefOk t.text l := by
  constructor
  · rintro hsound l rfl
    exact hsound.literal l h
  · intro hall
    have hcanonical : ∃ r, t.canonical ox = .ok r := by
      unfold EncodedTerm.canonical
      rw [h]
      exact ⟨_, rfl⟩
    refine ⟨⟨r, h⟩, hcanonical, fun l hl => hall l (Except.ok.inj (h.symm.trans hl)), ?_⟩
    intro t' ht'
    unfold EncodedTerm.canonical at ht'
    rw [h] at ht'
    match r, hall with
    | none, _ => simp [Except.map] at ht'
    | some (.namedNode _), _ => simp [Except.map] at ht'
    | some (.blankNode _), _ => simp [Except.map] at ht'
    | some (.literal l), hall => exact ⟨l, hall l rfl⟩

theorem toTerm_of_quoted (rest : Text) :
    (⟨'"' :: rest⟩ : EncodedTerm).toTerm = (parseQuoted rest).map fun parsed =>
      (parsed.bind fun p => parseSuffix p.1 p.2).map Term.literal := by
  rw [toTerm_quoted, parseNtriplesLiteral]
  cases parseQuoted rest <;> rfl

/-- Where the closing quote is found, the literal that is read has to be of the grammar. -/
theorem sound_iff_of_parsed (ox : Oxrdf) {rest : Text}
    (h : parseQuoted rest = .ok (some (v, suffix))) : EncodedTerm.Sound ox ⟨'"' :: rest⟩ ↔
      ∀ l, parseSuffix v suffix = some l → LiteralText iriRefOk ('"' :: rest) l := by
  have hterm := toTerm_of_quoted rest
  rw [h] at hterm
  rw [EncodedTerm.sound_iff ox hterm]
  simp

/-- The character of an escape. -/
def decodeEscape (e : Char) (tail : Text) : Option Char :=
  if escapeWidth e = 0 then unescape e
  else (hexDigits 0 (tail.take (escapeWidth e))).bind charFromU32

/-- The bytes of a suffix in print; the datatype of a simple literal is not printed. -/
def suffixSize (suffix : Text) : Nat :=
  if suffix = '^' :: '^' :: '<' :: (xsdString ++ ['>']) then 0 else byteLen suffix

/-- The bytes that a printer needs for what follows the opening quote, but for the quotes, if `size`
are those of a character in print. There is no number if an escape has no character. -/
def printedSize (size : Char → Nat) : (skip : Nat) → Text → Option Nat
  | _, [] => some 0
  | n + 1, _ :: rest => printedSize size n rest
  | 0, c :: rest =>
    if c = '"' then some (suffixSize rest)
    else if c = '\\' then
      match rest with
      | [] => some 0
      | e :: tail =>
        (decodeEscape e tail).bind fun ch =>
          (printedSize size (escapeWidth e) tail).map (size ch + ·)
    else (printedSize size 0 rest).map (size c + ·)

variable {size : Char → Nat}

theorem printedSize_skip (h rest : Text) :
    printedSize size h.length (h ++ rest) = printedSize size 0 rest := by
  induction h with
  | nil => rfl
  | cons c h ih => exact ih

theorem printedSize_escape (e : Char) (tail : Text) :
    printedSize size 0 ('\\' :: e :: tail) = (decodeEscape e tail).bind fun ch =>
      (printedSize size (escapeWidth e) tail).map (size ch + ·) := by
  have hslash : ¬ '\\' = '"' := by decide
  rw [printedSize.eq_def]
  simp only [if_neg hslash, if_true]

theorem printedSize_charText (hw : CharText w c) (rest : Text) :
    printedSize size 0 (w ++ rest) = (printedSize size 0 rest).map (size c + ·) := by
  cases hw with
  | plain c hquote hslash =>
    rw [singleton_append, printedSize.eq_def]
    simp only [if_neg hquote, if_neg hslash]
  | echar e c he =>
    rw [cons_append, singleton_append, printedSize_escape, decodeEscape,
      if_pos (escapeWidth_unescape he), he, escapeWidth_unescape he]
    rfl
  | uchar e digits c hpos hwidth _ hvalue =>
    have hwide : escapeWidth e ≠ 0 := by
      rw [← hwidth]
      simpa using hpos
    rw [cons_append, cons_append, printedSize_escape, decodeEscape, if_neg hwide, ← hwidth,
      take_left, hvalue, printedSize_skip]
    simp [charFromU32_toNat]

theorem printedSize_valueText (h : ValueText w v) (rest : Text) :
    printedSize size 0 (w ++ '"' :: rest) = some ((v.map size).sum + suffixSize rest) := by
  induction h with
  | nil =>
    rw [nil_append, printedSize.eq_def]
    simp
  | cons hw _ ih =>
    rw [append_assoc, printedSize_charText hw, ih, map_cons, sum_cons, Nat.add_assoc]
    rfl

/-- **An accepted body** spells a value, or it has an escape without a character and the parser
answers nothing. -/
theorem valueText_of_literalBodyOk (size : Char → Nat) (hbody : literalBodyOk s = some suffix) :
    (∃ w v, s = w ++ '"' :: suffix ∧ ValueText w v) ∨
      parseQuoted s = .ok none ∧ printedSize size 0 s = none := by
  -- a spelled character in front changes neither
  have hcons : ∀ {w s : Text} {c : Char}, CharText w c →
      ((∃ w v, s = w ++ '"' :: suffix ∧ ValueText w v) ∨
        parseQuoted s = .ok none ∧ printedSize size 0 s = none) →
      (∃ w' v, w ++ s = w' ++ '"' :: suffix ∧ ValueText w' v) ∨
        parseQuoted (w ++ s) = .ok none ∧ printedSize size 0 (w ++ s) = none := by
    rintro w s c hw (⟨w', v, rfl, hvalue⟩ | ⟨hnone, hsize⟩)
    · exact .inl ⟨w ++ w', c :: v, by rw [append_assoc], .cons hw hvalue⟩
    · exact .inr ⟨by rw [parseQuoted_charText hw, hnone]; rfl,
        by rw [printedSize_charText hw, hsize]; rfl⟩
  induction s using scan_induction with
  | nil | lone =>
    rw [literalBodyOk.eq_def] at hbody
    simp at hbody
  | quote rest =>
    rw [literalBodyOk.eq_def] at hbody
    simp only [if_true, Option.some.injEq] at hbody
    exact .inl ⟨[], [], by rw [hbody, nil_append], .nil⟩
  | escape e tail ih =>
    rcases literalBodyOk_escape hbody with
      ⟨hmem, hbody⟩ | ⟨digits, rest, rfl, hpos, hwidth, hhex, hbody⟩
    · have hwide := escapeWidth_of_mem hmem
      cases hch : unescape e with
      | some ch => exact hcons (.echar e ch hch) (ih tail le_rfl hbody)
      | none =>
        refine .inr ⟨parseQuoted_unknown tail hwide hch, ?_⟩
        rw [printedSize_escape, decodeEscape, if_pos hwide, hch]
        rfl
    · have hwide : escapeWidth e ≠ 0 := by
        rw [← hwidth]
        simpa using hpos
      cases hch : (hexDigits 0 digits).bind charFromU32 with
      | some ch =>
        obtain ⟨code, hcode, hchar⟩ := Option.bind_eq_some_iff.mp hch
        refine hcons (.uchar e digits ch hpos hwidth hhex ?_) (ih rest (by simp) hbody)
        rw [hcode, toNat_of_charFromU32 hchar]
      | none =>
        have hread : hexChar (digits ++ rest) (escapeWidth e) = .ok none := by
          rw [← hwidth, hexChar_of_digits rest hpos hhex, hch]
        refine .inr ⟨parseQuoted_unread hwide hread (by simp), ?_⟩
        rw [printedSize_escape, decodeEscape, if_neg hwide, ← hwidth, take_left, hch]
        rfl
  | plain c rest hquote hslash ih =>
    rw [literalBodyOk.eq_def] at hbody
    simp only [if_neg hquote, if_neg hslash] at hbody
    exact hcons (.plain c hquote hslash) (ih hbody)

end Craqle
