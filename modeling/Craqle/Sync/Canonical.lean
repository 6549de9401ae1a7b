import Craqle.Sync.Check

/-! # Canonical forms of checked terms

The check accepts more than the parser reads: the escape of an apostrophe, and escapes of code
points that are no characters. And a canonical text can be longer than the one at hand, by the
characters that the printer escapes and that stood there as they are.

A checked term decodes, and its canonical text passes the check and decodes to the same term,
exactly if every escape in it has a character and what the printer writes for the decoded literal
is within the size limit (`checkTerm_canonicalize_iff`). How many bytes the printer writes for a
character is left to the printer.
-/

namespace Craqle

open Char List Literal

variable {l : Literal}

/-- **The check accepts every text of the grammar** within the size limit. -/
theorem checkTerm_of_literalText {ox : Oxrdf} {text : Text} (h : LiteralText iriBodyOk text l)
    (hsize : byteLen text ≤ maxTermBytes) : checkTerm ox ⟨text⟩ = .ok .literal := by
  have hok := literalOk_of_literalText h
  cases h with
  | @mk w v suffix _ hvalue hsuffix =>
    have hstar : ¬ (⟨'"' :: (w ++ '"' :: suffix)⟩ : EncodedTerm).isRdfStar = true :=
      Bool.false_ne_true
    have hiri : iriBody ('"' :: (w ++ '"' :: suffix)) = none := rfl
    unfold checkTerm
    rw [if_neg hstar, if_neg (not_lt.mpr hsize)]
    simp only [hiri, hok, if_true]
    rfl

variable {suffix : Text}

/-! ## Printed literals

The canonical text of a literal is the printed form of the literal with its tag in lower case. -/

/-- Language tags are compared in lower case. -/
def Term.lowerTag : Term → Term
  | .literal l => .literal l.lowerTag
  | .namedNode iri => .namedNode iri
  | .blankNode label => .blankNode label

theorem isAlphanum_toLower (c : Char) : c.toLower.isAlphanum = c.isAlphanum := by
  by_cases hup : c.isUpper = true
  · have halpha : c.isAlpha = true := by simp [isAlpha, hup]
    simp [isAlphanum, halpha]
  · rw [toLower_eq_of_not_isUpper hup]

theorem utf8Size_toLower (c : Char) : c.toLower.utf8Size = c.utf8Size := by
  by_cases hup : c.isUpper = true
  · have hsmall : c.toNat ≤ 90 := by
      simp only [isUpper, decide_eq_true_eq] at hup
      exact UInt32.le_iff_toNat_le.mp hup.2
    have hlower : c.toLower.toNat < 128 := by
      rw [toLower_eq_of_isUpper hup, toNat_ofNat]
      split_ifs
      · omega
      · omega
    rw [utf8Size_of_ascii hlower, utf8Size_of_ascii (by omega)]
  · rw [toLower_eq_of_not_isUpper hup]

theorem toLower_eq_dash (c : Char) : (c.toLower == '-') = (c == '-') := by
  by_cases hup : c.isUpper = true
  · -- a letter is no dash, in either case
    have halpha : c.isAlpha = true := by simp [isAlpha, hup]
    have hlower : c.toLower ≠ '-' := by
      intro heq
      have := isAlpha_toLower_eq_isAlpha c
      rw [heq, halpha] at this
      exact absurd this (by decide)
    have hc : c ≠ '-' := by
      rintro rfl
      exact absurd halpha (by decide)
    simp [hlower, hc]
  · rw [toLower_eq_of_not_isUpper hup]

theorem splitOn_map_toLower (tag : Text) :
    (tag.map toLower).splitOn '-' = (tag.splitOn '-').map (map toLower) := by
  induction tag with
  | nil => rfl
  | cons c tag ih =>
    simp only [splitOn, map_cons, splitOnP_cons_eq_if_modifyHead,
      toLower_eq_dash] at ih ⊢
    by_cases hdash : (c == '-') = true
    · simp only [if_pos hdash, map_cons, map_nil, ih]
    · simp only [if_neg hdash, ih]
      cases tag.splitOnP (· == '-') with
      | nil => rfl
      | cons part parts => rfl

theorem languageOk_toLower {tag : Text} (h : languageOk tag = true) :
    languageOk (tag.map toLower) = true := by
  unfold languageOk at h ⊢
  rw [splitOn_map_toLower]
  cases hsplit : tag.splitOn '-' with
  | nil => simp [hsplit] at h
  | cons primary parts =>
    simp only [hsplit, Bool.and_eq_true, all_eq_true, decide_eq_true_eq] at h
    obtain ⟨⟨hne, halpha⟩, hparts⟩ := h
    simp only [map_cons, Bool.and_eq_true, all_eq_true, decide_eq_true_eq,
      mem_map, forall_exists_index, and_imp, forall_apply_eq_imp_iff₂,
      isAlpha_toLower_eq_isAlpha, isAlphanum_toLower, ne_eq, map_eq_nil_iff]
    exact ⟨⟨hne, halpha⟩, fun part hpart => ⟨(hparts part hpart).1, (hparts part hpart).2⟩⟩

/-- A literal whose tag or datatype can be written behind a quote. -/
def Literal.Suffixed : Literal → Prop
  | .languageTagged _ language => languageOk language = true
  | .typed _ datatype => iriBodyOk datatype = true

theorem Literal.Suffixed.lowerTag (h : l.Suffixed) : l.lowerTag.Suffixed := by
  cases l with
  | languageTagged value language => exact languageOk_toLower h
  | typed value datatype => exact h

theorem SuffixText.suffixed {v : Text} (h : SuffixText iriBodyOk v suffix l) :
    l.Suffixed := by
  cases h with
  | simple => exact (by decide : iriBodyOk xsdString = true)
  | tagged htag => exact htag
  | typed hiri => exact hiri

variable {ox : Oxrdf} {escape : Char → Text}

theorem valueText_flatMap (hspell : ∀ c, Spells (escape c) c) (value : Text) :
    ValueText (value.flatMap escape) value := by
  induction value with
  | nil => exact .nil
  | cons c value ih => exact .cons (spells_charText (hspell c)) ih

/-- **Printed literals are of the grammar.** -/
theorem literalText_literalToString (hox : ox.PrintsNTriples escape) {l : Literal}
    (hl : l.Suffixed) : LiteralText iriBodyOk (ox.literalToString l) l := by
  cases l with
  | languageTagged value language =>
    rw [hox.tagged]
    exact .mk (valueText_flatMap hox.spells value) (.tagged hl)
  | typed value datatype =>
    by_cases hdt : datatype = xsdString
    · subst hdt
      have hprint := hox.simple value
      rw [simple] at hprint
      rw [hprint]
      exact .mk (valueText_flatMap hox.spells value) .simple
    · rw [hox.typed value datatype hdt]
      exact .mk (valueText_flatMap hox.spells value) (.typed hl)

/-! ### Sizes -/

theorem byteLen_flatMap (value : Text) :
    byteLen (value.flatMap escape) = (value.map (byteLen ∘ escape)).sum := by
  induction value with
  | nil => rfl
  | cons c value ih => rw [flatMap_cons, byteLen_append, ih, map_cons, sum_cons, Function.comp_apply]

theorem byteLen_map_toLower (tag : Text) : byteLen (tag.map Char.toLower) = byteLen tag := by
  simp [byteLen, Function.comp_def, utf8Size_toLower]

/-- **The size of a canonical text** is that of its characters in print, of its suffix and of the
quotes. -/
theorem byteLen_literalToString (hox : ox.PrintsNTriples escape) {v : Text}
    (h : SuffixText iriBodyOk v suffix l) :
    byteLen (ox.literalToString l.lowerTag) =
      (v.map (byteLen ∘ escape)).sum + suffixSize suffix + 2 := by
  have hquote : '"'.utf8Size = 1 := rfl
  have hnil : byteLen [] = 0 := rfl
  have hsimple : byteLen (ox.literalToString (.simple v)) =
      (v.map (byteLen ∘ escape)).sum + 2 := by
    rw [hox.simple, byteLen_cons, byteLen_append, byteLen_flatMap, byteLen_cons, hquote, hnil]
    omega
  cases h with
  | simple =>
    have hsize : suffixSize [] = 0 := rfl
    rw [hsize]
    exact hsimple
  | @tagged tag _ =>
    have hsize : suffixSize ('@' :: tag) = byteLen ('@' :: tag) := rfl
    rw [lowerTag, hox.tagged, hsize]
    simp only [byteLen_cons, byteLen_append, byteLen_flatMap, byteLen_map_toLower, hquote]
    omega
  | @typed datatype _ =>
    by_cases hdt : datatype = xsdString
    · -- the datatype of a simple literal is not printed
      subst hdt
      have hsize : suffixSize ('^' :: '^' :: '<' :: (xsdString ++ ['>'])) = 0 := if_pos rfl
      rw [hsize]
      exact hsimple
    · have hsize : suffixSize ('^' :: '^' :: '<' :: (datatype ++ ['>'])) =
          byteLen ('^' :: '^' :: '<' :: (datatype ++ ['>'])) := by
        refine if_neg fun heq => hdt ?_
        simpa using heq
      rw [lowerTag, hox.typed _ _ hdt, hsize]
      simp only [byteLen_cons, byteLen_append, byteLen_flatMap, hquote]
      omega

/-! ## Checked terms -/

/-- **The condition on a literal**: every escape has a character, and the limit leaves room for the
literal as it is printed. -/
def EncodedTerm.Decodable (escape : Char → Text) (t : EncodedTerm) : Prop :=
  ∀ rest, t.text = '"' :: rest →
    ∃ n, printedSize (byteLen ∘ escape) 0 rest = some n ∧ n + 2 ≤ maxTermBytes

/-- The term decodes, and its canonical form passes the check and decodes to the same term. -/
def EncodedTerm.KeepsMeaning (ox : Oxrdf) (t : EncodedTerm) (shape : TermShape) : Prop :=
  ∃ x t', t.toTerm = .ok (some x) ∧ t.canonicalize ox = .ok t' ∧
    checkTerm ox t' = .ok shape ∧ t'.toTerm = .ok (some x.lowerTag)

theorem byteLen_of_checkTerm {t : EncodedTerm} {shape : TermShape}
    (h : checkTerm ox t = .ok shape) : byteLen t.text ≤ maxTermBytes := by
  unfold checkTerm at h
  split at h
  · cases h
  split at h
  · cases h
  · next hsize => exact Nat.le_of_not_lt hsize

/-- **Checked terms decode, and keep their meaning and their check when they are canonicalized,
exactly if they are decodable.** -/
theorem checkTerm_canonicalize_iff (hox : ox.PrintsNTriples escape) {t : EncodedTerm}
    {shape : TermShape} (hcheck : checkTerm ox t = .ok shape) :
    t.KeepsMeaning ox shape ↔ t.Decodable escape := by
  obtain ⟨text⟩ := t
  obtain ⟨body, rfl, _⟩ | ⟨label, rfl, _⟩ | ⟨rest, suffix, rfl, hbody, hsuffix, rfl⟩ :=
    checkTerm_cases hcheck
  · have hterm := toTerm_iri body
    refine iff_of_true ⟨.namedNode body, ⟨'<' :: (body ++ ['>'])⟩, hterm, ?_, hcheck, hterm⟩ ?_
    · rw [EncodedTerm.canonicalize_eq, hterm]
      rfl
    · intro rest hrest
      cases hrest
  · have hterm := toTerm_blank label
    refine iff_of_true ⟨.blankNode label, ⟨'_' :: ':' :: label⟩, hterm, ?_, hcheck, hterm⟩ ?_
    · rw [EncodedTerm.canonicalize_eq, hterm]
      rfl
    · intro rest hrest
      cases hrest
  have hdec : EncodedTerm.Decodable escape ⟨'"' :: rest⟩ ↔
      ∃ n, printedSize (byteLen ∘ escape) 0 rest = some n ∧ n + 2 ≤ maxTermBytes :=
    ⟨fun h => h rest rfl, fun h rest' heq => (cons.inj heq).2 ▸ h⟩
  rw [hdec]
  rcases valueText_of_literalBodyOk (byteLen ∘ escape) hbody with
    ⟨w, v, rfl, hvalue⟩ | ⟨hnone, hsize⟩
  · -- the literal is of the grammar, and the size of its canonical text decides
    obtain ⟨l, hl⟩ := exists_suffixText v hsuffix
    have hterm := toTerm_of_literalText (.mk hvalue hl)
    have hcanonical : EncodedTerm.canonicalize ox ⟨'"' :: (w ++ '"' :: suffix)⟩ =
        .ok ⟨ox.literalToString l.lowerTag⟩ := EncodedTerm.canonicalize_literal hterm
    have hprinted := literalText_literalToString hox hl.suffixed.lowerTag
    rw [printedSize_valueText hvalue]
    constructor
    · rintro ⟨x, t', -, ht', hchecked, -⟩
      rw [hcanonical] at ht'
      cases ht'
      have hle := byteLen_of_checkTerm hchecked
      rw [byteLen_literalToString hox hl] at hle
      exact ⟨_, rfl, hle⟩
    · rintro ⟨n, hn, hle⟩
      cases hn
      rw [← byteLen_literalToString hox hl] at hle
      exact ⟨.literal l, _, hterm, hcanonical, checkTerm_of_literalText hprinted hle,
        toTerm_of_literalText hprinted⟩
  · -- an escape has no character, and the parser answers nothing
    rw [hsize]
    refine iff_of_false ?_ (by simp)
    rintro ⟨x, t', hterm, -⟩
    rw [toTerm_quoted, parseNtriplesLiteral, hnone] at hterm
    cases hterm

/-- A raw line feed is printed as an escape of two bytes. -/
theorem checkTerm_canonicalize_tagged :
    ∃ t : EncodedTerm, t.text = "\"\\U00000041\n\"@EN".toList ∧
      checkTerm ntriplesOxrdf t = .ok .literal ∧ t.KeepsMeaning ntriplesOxrdf .literal ∧
      t.canonicalize ntriplesOxrdf = .ok ⟨"\"A\\n\"@en".toList⟩ := by
  have hcheck : checkTerm ntriplesOxrdf ⟨"\"\\U00000041\n\"@EN".toList⟩ = .ok .literal := by
    decide +kernel
  have hdec : EncodedTerm.Decodable escapeChar ⟨"\"\\U00000041\n\"@EN".toList⟩ := by
    intro rest hrest
    rw [← (cons.inj hrest).2]
    exact ⟨6, by decide +kernel, by decide⟩
  exact ⟨_, rfl, hcheck, (checkTerm_canonicalize_iff ntriplesOxrdf_prints hcheck).mpr hdec,
    by decide +kernel⟩

/-- A text that the check accepts and that grows: a million raw control characters. -/
def controlText : Text := '"' :: (List.replicate 1000000 '\x01' ++ ['"'])

theorem valueText_replicate {c : Char} (n : Nat) (hquote : c ≠ '"') (hslash : c ≠ '\\') :
    ValueText (List.replicate n c) (List.replicate n c) := by
  induction n with
  | zero => exact .nil
  | succ n ih => exact .cons (.plain c hquote hslash) ih

theorem byteLen_flatMap_replicate (f : Char → Text) (n : Nat) (c : Char) :
    byteLen ((List.replicate n c).flatMap f) = n * byteLen (f c) := by
  induction n with
  | zero => simp [byteLen]
  | succ n ih =>
    rw [List.replicate_succ, List.flatMap_cons, byteLen_append, ih]
    ring

theorem byteLen_replicate (n : Nat) (c : Char) : byteLen (List.replicate n c) = n * c.utf8Size := by
  simp [byteLen]

theorem literalText_controlText :
    LiteralText iriBodyOk controlText (.simple (List.replicate 1000000 '\x01')) :=
  .mk (valueText_replicate _ (by decide) (by decide)) .simple

/-- The check accepts the escape of an apostrophe and that of a surrogate, which do not decode, and
a text whose canonical form it refuses. -/
theorem checkTerm_accepts_too_much :
    (checkTerm ntriplesOxrdf ⟨"\"\\'\"".toList⟩ = .ok .literal ∧
      EncodedTerm.toTerm ⟨"\"\\'\"".toList⟩ = .ok none) ∧
    (checkTerm ntriplesOxrdf ⟨"\"\\uD800\"".toList⟩ = .ok .literal ∧
      EncodedTerm.toTerm ⟨"\"\\uD800\"".toList⟩ = .ok none) ∧
    (checkTerm ntriplesOxrdf ⟨controlText⟩ = .ok .literal ∧
      ∃ t', EncodedTerm.canonicalize ntriplesOxrdf ⟨controlText⟩ = .ok t' ∧
        checkTerm ntriplesOxrdf t' = .error (.termTooLong 6000002)) := by
  refine ⟨⟨by decide +kernel, by decide +kernel⟩, ⟨by decide +kernel, by decide +kernel⟩, ?_⟩
  have hquote : '"'.utf8Size = 1 := rfl
  have hctl : '\x01'.utf8Size = 1 := rfl
  have hnil : byteLen [] = 0 := rfl
  have hsize : byteLen controlText ≤ maxTermBytes := by
    rw [controlText, byteLen_cons, byteLen_append, byteLen_replicate, byteLen_cons, hquote, hctl,
      hnil, maxTermBytes]
    omega
  refine ⟨checkTerm_of_literalText literalText_controlText hsize,
    ⟨EncodedTerm.canonicalText ntriplesOxrdf (.simple (List.replicate 1000000 '\x01'))⟩, ?_, ?_⟩
  · rw [EncodedTerm.canonicalize_eq, toTerm_of_literalText literalText_controlText]
    rfl
  have hprint : EncodedTerm.canonicalText ntriplesOxrdf
      (.simple (List.replicate 1000000 '\x01')) =
      '"' :: ((replicate 1000000 '\x01').flatMap escapeChar ++ ['"']) :=
    ntriplesOxrdf_prints.simple _
  generalize EncodedTerm.canonicalText ntriplesOxrdf _ = text at hprint ⊢
  have hescape : byteLen (escapeChar '\x01') = 6 := by decide
  have hlong : byteLen text = 6000002 := by
    rw [hprint, byteLen_cons, byteLen_append, byteLen_flatMap_replicate, byteLen_cons, hquote,
      hescape, hnil]
  have hstar : ¬ (⟨text⟩ : EncodedTerm).isRdfStar = true := by
    rw [hprint]
    exact Bool.false_ne_true
  unfold checkTerm
  rw [if_neg hstar]
  simp only [hlong]
  rfl

end Craqle
