import Callable.Proofs.Docs.Normal
import Callable.Proofs.Docs.Squeeze
import Callable.Proofs.Docs.Title
import Callable.Proofs.Reference.Spelling

/-!
Numerals told as defaults. A token without quotes ends at the first blank, point or comma, so of a numeral
after `defaults to` the part before its point becomes the default, and the point with the digits behind it
is left to the description. A numeral without a point is taken whole, and the description closes over it.
-/
namespace Callable.Docs

open Reference (Stops takeWhile_append_of_stops dropWhile_append_of_stops)

/-- Words of letters with single spaces between them. -/
structure IsProse (text : List Char) : Prop extends Lettered text where
  single : text.IsChain fun c d => ¬ (c = ' ' ∧ d = ' ')

/-- A decimal numeral in two parts: an optional minus with digits, then nothing or a point with digits. -/
structure IsDecimal (whole fraction : List Char) : Prop where
  whole : ∃ digits, (whole = digits ∨ whole = '-' :: digits) ∧ Decimal.isNumeral digits = true
  fraction : fraction = [] ∨
    ∃ digits, fraction = '.' :: digits ∧ Decimal.isNumeral digits = true

/-- A description that ends in a numeral as the default. -/
def toldNumeral (prose whole fraction : List Char) : List Char :=
  prose ++ ", defaults to ".toList ++ whole ++ fraction ++ ['.']

theorem IsProse.not_mem {text : List Char} (h : IsProse text) {c : Char} (hspace : c ≠ ' ')
    (hletter : Text.isLetter c = false) : c ∉ text := by
  intro hc
  rcases h.chars c hc with heq | hc
  · exact hspace heq
  · exact absurd (hc.symm.trans hletter) (by decide)

theorem IsProse.last_ne {text : List Char} (h : IsProse text) {c : Char}
    (hletter : Text.isLetter c = false) : text.getLast? ≠ some c := by
  intro hlast
  exact absurd ((h.last c hlast).symm.trans hletter) (by decide)

theorem isDigit_of_isNumeral {digits : List Char} (h : Decimal.isNumeral digits = true) :
    digits ≠ [] ∧ ∀ c ∈ digits, c.isDigit = true := by
  obtain ⟨hne, hall⟩ := Bool.and_eq_true_iff.mp h
  exact ⟨by simpa using hne, List.all_eq_true.mp hall⟩

/-- The part before the point is a minus or a digit, and digits. -/
theorem IsDecimal.exists_whole {whole fraction : List Char} (h : IsDecimal whole fraction) :
    ∃ c rest, whole = c :: rest ∧ (c = '-' ∨ c.isDigit = true) ∧ ∀ d ∈ rest, d.isDigit = true := by
  obtain ⟨digits, hwhole, hdigits⟩ := h.whole
  obtain ⟨hne, hall⟩ := isDigit_of_isNumeral hdigits
  rcases hwhole with rfl | rfl
  · obtain ⟨c, rest, rfl⟩ := List.exists_cons_of_ne_nil hne
    obtain ⟨hc, hrest⟩ := List.forall_mem_cons.mp hall
    exact ⟨c, rest, rfl, Or.inr hc, hrest⟩
  · exact ⟨'-', digits, rfl, Or.inl rfl, hall⟩

/-- What comes after the whole part begins with a point. -/
theorem IsDecimal.exists_tail {whole fraction : List Char} (h : IsDecimal whole fraction) :
    ∃ more, fraction ++ ['.'] = '.' :: more ∧ ∀ c ∈ more, c = '.' ∨ c.isDigit = true := by
  rcases h.fraction with rfl | ⟨digits, rfl, hdigits⟩
  · exact ⟨[], rfl, List.forall_mem_nil _⟩
  · refine ⟨digits ++ ['.'], rfl, List.forall_mem_append.mpr ⟨fun c hc => ?_, ?_⟩⟩
    · exact Or.inr ((isDigit_of_isNumeral hdigits).2 c hc)
    · exact List.forall_mem_singleton.mpr (Or.inl rfl)

theorem quotedToken?_eq_none {text : List Char} (h : ∀ c ∈ text.head?, isQuote c = false) :
    quotedToken? text = none := by
  cases text with
  | nil => rfl
  | cons c rest =>
    have hc : isQuote c = false := h c rfl
    simp [quotedToken?, hc]

theorem unquote_eq_self {text : List Char} (h : ∀ c ∈ text.head?, isQuote c = false) :
    unquote text = text := by
  cases text with
  | nil => rfl
  | cons c rest =>
    have hc : isQuote c = false := h c rfl
    simp [unquote, hc]

/-- A token without quotes goes as far as its characters do. -/
theorem token?_append {token rest : List Char} (hne : token ≠ [])
    (hquote : ∀ c ∈ token.head?, isQuote c = false) (htoken : ∀ c ∈ token, endsToken c = false)
    (hrest : ∀ c ∈ rest.head?, endsToken c = true) : token? (token ++ rest) = some (token, rest) := by
  have hall : ∀ c ∈ token, (!endsToken c) = true := fun c hc => by rw [htoken c hc]; rfl
  have hstop : Stops (!endsToken ·) rest := fun c hc => by simp [hrest c hc]
  have hnone : quotedToken? (token ++ rest) = none := by
    apply quotedToken?_eq_none
    rwa [List.head?_append_of_ne_nil _ hne]
  unfold token?
  rw [hnone, takeWhile_append_of_stops hall hstop, dropWhile_append_of_stops hall hstop]
  cases token with
  | nil => exact absurd rfl hne
  | cons c token => rfl

theorem endsToken_of_isDigit {c : Char} (h : c.isDigit = true) : endsToken c = false := by
  have hblank := Text.isBlank_of_isLetterOrDigit (Text.isLetterOrDigit_of_isDigit h)
  have hpoint : c ≠ '.' := by
    rintro rfl
    cases h
  have hcomma : c ≠ ',' := by
    rintro rfl
    cases h
  simp [endsToken, hblank, hpoint, hcomma]

theorem isQuote_of_isDigit {c : Char} (h : c.isDigit = true) : isQuote c = false := by
  rw [isQuote, Bool.or_eq_false_iff, Bool.or_eq_false_iff, beq_eq_false_iff_ne,
    beq_eq_false_iff_ne, beq_eq_false_iff_ne]
  refine ⟨⟨?_, ?_⟩, ?_⟩ <;> rintro rfl <;> cases h

section Whole

variable {whole fraction : List Char} (h : IsDecimal whole fraction)

include h

theorem IsDecimal.not_isQuote_head : ∀ c ∈ whole.head?, isQuote c = false := by
  obtain ⟨c, rest, rfl, hc, -⟩ := h.exists_whole
  rintro _ ⟨⟩
  rcases hc with rfl | hdigit
  · decide
  · exact isQuote_of_isDigit hdigit

theorem IsDecimal.token?_eq :
    token? (whole ++ (fraction ++ ['.'])) = some (whole, fraction ++ ['.']) := by
  have hquote := h.not_isQuote_head
  obtain ⟨more, hmore, -⟩ := h.exists_tail
  obtain ⟨c, rest, rfl, hc, hrest⟩ := h.exists_whole
  apply token?_append (List.cons_ne_nil c rest) hquote
  · refine List.forall_mem_cons.mpr ⟨?_, fun d hd => endsToken_of_isDigit (hrest d hd)⟩
    rcases hc with rfl | hdigit
    · decide
    · exact endsToken_of_isDigit hdigit
  · rw [hmore]
    rintro _ ⟨⟩
    decide

end Whole

section Prose

variable {prose : List Char} (h : IsProse prose)

include h

/-- Prose before a point is trimmed, whatever stands between the two. -/
theorem IsProse.trim_append (between : List Char) :
    Text.trim (prose ++ (between ++ ['.'])) = prose ++ (between ++ ['.']) := by
  rw [Text.trim_eq_self_iff, Text.trimStart_eq_self_iff, Text.trimEnd_eq_self_iff]
  constructor
  · intro c hc
    rw [List.head?_append_of_ne_nil _ h.ne_nil] at hc
    exact not_isBlank_of_isLetter (h.head c hc)
  · intro c hc
    rw [← List.append_assoc, List.getLast?_concat] at hc
    cases hc
    decide

/-- The phrase stands nowhere in the prose, and does not begin at the comma or the blank after it. -/
theorem IsProse.cut?_append (hnew : ¬ "defaults to".toList <:+: prose) (rest : List Char) :
    Text.cut? "defaults to ".toList (prose ++ ", ".toList ++ ("defaults to ".toList ++ rest)) =
      some (prose ++ ", ".toList, rest) := by
  apply Text.cut?_append_first (by decide)
  intro front back hsplit hback hbegins
  rcases List.append_eq_append_iff.mp hsplit with ⟨middle, -, hmark⟩ | ⟨middle, rfl, rfl⟩
  · obtain ⟨b, back, rfl⟩ := List.exists_cons_of_ne_nil hback
    have hb : 'd' = b := (List.cons_prefix_cons.mp hbegins).1
    have hmem : 'd' ∈ ", ".toList := hmark ▸ List.mem_append_right middle (hb ▸ List.mem_cons_self)
    exact absurd hmem (by decide)
  · have hcomma : ',' ∉ "defaults to ".toList := by decide
    have hcut : middle ++ ", ".toList ++ ("defaults to ".toList ++ rest) =
        middle ++ ',' :: (" ".toList ++ ("defaults to ".toList ++ rest)) := by
      simp
    rw [hcut] at hbegins
    have hshort : "defaults to".toList <+: "defaults to ".toList := by decide
    have hmiddle := hshort.trans (Text.prefix_of_prefix_append hcomma hbegins)
    exact hnew (hmiddle.isInfix.trans (List.suffix_append front middle).isInfix)

/-- Nothing is dropped from prose, nor where it ends, unless letters are. -/
theorem IsProse.dropBefore_append {first second : Char} (hfirst : Text.isLetter first = false)
    (hsecond : Text.isLetter second = false) (back : List Char) :
    dropBefore first second (prose ++ back) = prose ++ dropBefore first second back := by
  have hkept : dropBefore first second prose = prose := by
    by_cases hspace : first = ' '
    · by_cases hspaces : second = ' '
      · subst hspace hspaces
        exact dropBefore_eq_self h.single
      · exact dropBefore_of_second_not_mem (h.not_mem hspaces hsecond)
    · exact dropBefore_of_first_not_mem (h.not_mem hspace hfirst)
  rw [Docs.dropBefore_append, hkept]
  exact fun hlast => absurd hlast (h.last_ne hfirst)

end Prose

section Told

variable {prose whole fraction : List Char} (hprose : IsProse prose)
  (hdecimal : IsDecimal whole fraction)

include hprose hdecimal

theorem extractDefault?_toldNumeral (hnew : ¬ "defaults to".toList <:+: prose) :
    extractDefault? (toldNumeral prose whole fraction) =
      some (prose ++ (", ".toList ++ fraction ++ ['.']), whole) := by
  have htext : toldNumeral prose whole fraction = prose ++ ", ".toList ++
      ("defaults to ".toList ++ (whole ++ (fraction ++ ['.']))) := by
    simp [toldNumeral]
  have hrest : prose ++ ", ".toList ++ (fraction ++ ['.']) =
      prose ++ (", ".toList ++ fraction ++ ['.']) := by
    simp
  unfold extractDefault?
  rw [htext, hprose.cut?_append hnew]
  dsimp only
  rw [hdecimal.token?_eq, Option.map_some, hrest, hprose.trim_append]

/-- The blank is dropped before the point, and then the comma is. -/
theorem squeeze_toldNumeral :
    squeeze (prose ++ (", ".toList ++ fraction ++ ['.'])) = prose ++ (fraction ++ ['.']) := by
  obtain ⟨more, hmore, hchars⟩ := hdecimal.exists_tail
  have hnone {c : Char} (hpoint : c ≠ '.') (hdigit : c.isDigit = false) : c ∉ '.' :: more := by
    rw [List.mem_cons, not_or]
    refine ⟨hpoint, fun hc => ?_⟩
    rcases hchars c hc with heq | hc
    · exact hpoint heq
    · exact absurd (hc.symm.trans hdigit) (by decide)
  have hspace : ' ' ∉ '.' :: more := hnone (by decide) (by decide)
  have hcomma : ',' ∉ '.' :: more := hnone (by decide) (by decide)
  have hkept (second : Char) : dropBefore ' ' second ('.' :: more) = '.' :: more :=
    dropBefore_of_first_not_mem hspace
  have hdouble : dropBefore ' ' ' ' (prose ++ ',' :: ' ' :: '.' :: more) =
      prose ++ ',' :: ' ' :: '.' :: more := by
    rw [hprose.dropBefore_append (by decide) (by decide), dropBefore_cons, dropBefore_cons, hkept]
    simp
  have hpoint : dropBefore ' ' '.' (prose ++ ',' :: ' ' :: '.' :: more) =
      prose ++ ',' :: '.' :: more := by
    rw [hprose.dropBefore_append (by decide) (by decide), dropBefore_cons, dropBefore_cons, hkept]
    simp
  have hcommas : dropBefore ' ' ',' (prose ++ ',' :: '.' :: more) =
      prose ++ ',' :: '.' :: more := by
    rw [hprose.dropBefore_append (by decide) (by decide), dropBefore_cons, hkept]
    simp
  have hcolons : dropBefore ' ' ':' (prose ++ ',' :: '.' :: more) =
      prose ++ ',' :: '.' :: more := by
    rw [hprose.dropBefore_append (by decide) (by decide), dropBefore_cons, hkept]
    simp
  have hloose : dropBefore ',' '.' (prose ++ ',' :: '.' :: more) = prose ++ '.' :: more := by
    rw [hprose.dropBefore_append (by decide) (by decide), dropBefore_cons,
      dropBefore_of_first_not_mem hcomma]
    simp
  have htext : prose ++ (", ".toList ++ fraction ++ ['.']) = prose ++ ',' :: ' ' :: '.' :: more := by
    rw [← hmore]
    simp
  rw [htext, hmore]
  simp only [squeeze, List.foldl_cons, List.foldl_nil, hdouble, hpoint, hcommas, hcolons, hloose]

theorem tidy_toldNumeral :
    tidy (prose ++ (", ".toList ++ fraction ++ ['.'])) = prose ++ (fraction ++ ['.']) := by
  unfold tidy
  dsimp only
  have hlast : (prose ++ (fraction ++ ['.'])).getLast? = some '.' := by
    rw [← List.append_assoc, List.getLast?_concat]
  have hkept : ((prose ++ (fraction ++ ['.'])).reverse.dropWhile fun c =>
      c == ',' || c == ';').reverse = prose ++ (fraction ++ ['.']) := by
    rw [← List.append_assoc, List.reverse_append]
    simp
  have hend : Text.trimEnd (prose ++ (fraction ++ ['.'])) = prose ++ (fraction ++ ['.']) :=
    ((Text.trim_eq_self_iff _).mp (hprose.trim_append fraction)).2
  rw [squeeze_toldNumeral hprose hdecimal, hprose.trim_append, hkept, hend, if_pos (Or.inr hlast)]

end Told

variable {limits : Reference.Limits} {scope : Scope}

/-- An entry without a type and a default of its own, whose description ends in `defaults to` and a numeral:
what stands before the point of the numeral becomes the default, and the description goes on with the rest
of the numeral. So the numeral is the default, and nothing of it is left, exactly if it has no point. -/
theorem normalizeInput_toldNumeral {doc : InputDoc} {prose whole fraction : List Char}
    (hprose : IsProse prose) (hnew : ¬ "defaults to".toList <:+: prose)
    (hdecimal : IsDecimal whole fraction)
    (hdescription : doc.description = some (String.ofList (toldNumeral prose whole fraction)))
    (htype : doc.type = none) (hdefault : doc.default = none) :
    ∃ q, (normalizeInput limits scope doc).outcome = .ok q ∧
      q.default = some (.str (String.ofList whole)) ∧
      q.description = some (String.ofList (prose ++ fraction ++ ['.'])) := by
  have htrim : Text.trim (toldNumeral prose whole fraction) = toldNumeral prose whole fraction := by
    have htrimmed := hprose.trim_append (", defaults to ".toList ++ whole ++ fraction)
    simpa [toldNumeral] using htrimmed
  have hdocumented : documentedDefault doc =
      (prose ++ (", ".toList ++ fraction ++ ['.']), some (.str (String.ofList whole))) := by
    unfold documentedDefault
    simp only [hdescription, hdefault, Option.getD_some, Option.getD_none, String.toList_ofList, htrim,
      extractDefault?_toldNumeral hprose hdecimal hnew, unquote_eq_self hdecimal.not_isQuote_head]
  have htidy : nonEmpty (tidy (prose ++ (", ".toList ++ fraction ++ ['.']))) =
      some (String.ofList (prose ++ fraction ++ ['.'])) := by
    rw [tidy_toldNumeral hprose hdecimal, nonEmpty, if_neg (by simp), List.append_assoc]
  unfold normalizeInput
  simp only [hdocumented, htype, htidy, Logged.bind_eq_ok_iff, Logged.outcome_pure]
  exact ⟨_, ⟨_, rfl, rfl⟩, rfl, rfl⟩

/-- A ratio with a fraction. -/
def ratioDoc : InputDoc where
  name := "ratio"
  description := some "Blend Ratio, defaults to -0.25."

theorem isProse_blendRatio : IsProse "Blend Ratio".toList where
  toLettered := lettered_of_isTitle (by decide +kernel)
  single := by decide

theorem isDecimal_quarter : IsDecimal "-0".toList ".25".toList :=
  ⟨⟨['0'], by decide, by decide⟩, Or.inr ⟨"25".toList, by decide, by decide⟩⟩

theorem normalizeInput_toldNumeral_ratio :
    IsProse "Blend Ratio".toList ∧ ¬ "defaults to".toList <:+: "Blend Ratio".toList ∧
      IsDecimal "-0".toList ".25".toList ∧
      ratioDoc.description =
        some (String.ofList (toldNumeral "Blend Ratio".toList "-0".toList ".25".toList)) ∧
      ratioDoc.type = none ∧ ratioDoc.default = none ∧
      ∃ q, (normalizeInput ⟨100, 3⟩ (Registry.new "tables").scope ratioDoc).outcome = .ok q ∧
        q.default = some (.str "-0") ∧ q.description = some "Blend Ratio.25." := by
  have hnew : ¬ "defaults to".toList <:+: "Blend Ratio".toList := by decide +kernel
  have hdescription : ratioDoc.description =
      some (String.ofList (toldNumeral "Blend Ratio".toList "-0".toList ".25".toList)) := by
    decide +kernel
  have hleft : String.ofList ("Blend Ratio".toList ++ ".25".toList ++ ['.']) = "Blend Ratio.25." := by
    decide +kernel
  have hcut : ∃ q,
      (normalizeInput ⟨100, 3⟩ (Registry.new "tables").scope ratioDoc).outcome = .ok q ∧
      q.default = some (.str (String.ofList "-0".toList)) ∧
      q.description = some (String.ofList ("Blend Ratio".toList ++ ".25".toList ++ ['.'])) :=
    normalizeInput_toldNumeral isProse_blendRatio hnew isDecimal_quarter hdescription rfl rfl
  obtain ⟨q, hnormal, hdefault, hrest⟩ := hcut
  rw [String.ofList_toList] at hdefault
  rw [hleft] at hrest
  exact ⟨isProse_blendRatio, hnew, isDecimal_quarter, hdescription, rfl, rfl, q, hnormal, hdefault,
    hrest⟩

/-- A numeral with a point is not taken whole. -/
theorem not_numeral_default :
    ¬ ∀ (r : Registry), r.Reached → ∀ (limits : Reference.Limits) (doc : InputDoc)
      (prose whole fraction : List Char), IsProse prose →
      ¬ "defaults to".toList <:+: prose → IsDecimal whole fraction →
      doc.description = some (String.ofList (toldNumeral prose whole fraction)) →
      doc.type = none → doc.default = none →
      ∃ q, (normalizeInput limits r.scope doc).outcome = .ok q ∧
        q.default = some (.str (String.ofList (whole ++ fraction))) ∧
        q.description = some (String.ofList (prose ++ ['.'])) := by
  intro hall
  have hr : (Registry.new "tables").Reached := ⟨"tables", [], rfl⟩
  obtain ⟨q, hnormal, hdefault, -⟩ := hall (Registry.new "tables") hr ⟨100, 3⟩ ratioDoc
    "Blend Ratio".toList "-0".toList ".25".toList isProse_blendRatio (by decide +kernel) isDecimal_quarter
    (by decide +kernel) rfl rfl
  have hcut : (normalizeInput ⟨100, 3⟩ (Registry.new "tables").scope ratioDoc).outcome = .ok {
      name := "ratio", description := some "Blend Ratio.25.", default := some (.str "-0")
      optional := some true, positional := some false } := by
    decide +kernel
  rw [hcut] at hnormal
  obtain rfl := Except.ok.inj hnormal
  exact absurd hdefault (by decide +kernel)

end Callable.Docs
