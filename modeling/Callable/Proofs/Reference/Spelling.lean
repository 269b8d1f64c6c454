import Callable.Reference.Lexeme

/-!
The spelling of tokens, said without a reader. A text spells some tokens if it is made of blanks and
of the tokens' own spellings, where no integer and no name could be longer than it is. A text has
lexemes exactly if it spells their tokens.
-/
namespace Callable.Reference

/-- Digits, at least one, perhaps after a minus. -/
inductive IsNumeral : List Char → Prop
  | positive {digits : List Char} : digits ≠ [] → (∀ d ∈ digits, d.isDigit = true) →
      IsNumeral digits
  | negative {digits : List Char} : digits ≠ [] → (∀ d ∈ digits, d.isDigit = true) →
      IsNumeral ('-' :: digits)

/-- A letter or an underscore, then letters, digits, underscores and dots, no dot beside another or
at the end. -/
structure IsDotted (chars : List Char) : Prop where
  starts : ∃ first rest, chars = first :: rest ∧ startsName first = true
  continues : ∀ c ∈ chars, continuesName c = true
  no_double_dot : ¬ ['.', '.'] <:+: chars
  no_final_dot : ¬ ['.'] <:+ chars

/-- The characters between two quotes with the text they stand for. -/
inductive Quotes (quote : Char) : List Char → List Char → Prop
  | nil : Quotes quote [] []
  | escaped (c : Char) {body text : List Char} : Quotes quote body text →
      Quotes quote ('\\' :: c :: body) (unescape c :: text)
  | plain {c : Char} {body text : List Char} : c ≠ '\\' → c ≠ quote → Quotes quote body text →
      Quotes quote (c :: body) (c :: text)

/-- The next character, if there is one, is not of a class. -/
def Stops (p : Char → Bool) (rest : List Char) : Prop := ∀ c, rest.head? = some c → p c = false

inductive Spells : List Char → List Token → Prop
  | nil : Spells [] []
  | space {c : Char} {rest : List Char} {tokens : List Token} : isSpace c = true →
      Spells rest tokens → Spells (c :: rest) tokens
  | mark {c : Char} {token : Token} {rest : List Char} {tokens : List Token} :
      punctuation? c = some token → Spells rest tokens → Spells (c :: rest) (token :: tokens)
  | quoted {quote : Char} {body text rest : List Char} {tokens : List Token} :
      quote = '\'' ∨ quote = '"' → Quotes quote body text → Spells rest tokens →
      Spells (quote :: (body ++ quote :: rest)) (.quoted (String.ofList text) :: tokens)
  | number {numeral rest : List Char} {tokens : List Token} : IsNumeral numeral →
      Stops Char.isDigit rest → Spells rest tokens →
      Spells (numeral ++ rest) (.number (String.ofList numeral) :: tokens)
  | name {chars rest : List Char} {tokens : List Token} : IsDotted chars →
      Stops continuesName rest → Spells rest tokens →
      Spells (chars ++ rest) (.name (String.ofList chars) :: tokens)

theorem stops_dropWhile (p : Char → Bool) (text : List Char) : Stops p (text.dropWhile p) := by
  intro c hc
  have h := List.head?_dropWhile_not p text
  rw [hc] at h
  exact h

theorem takeWhile_append_of_stops {p : Char → Bool} {chars rest : List Char}
    (hall : ∀ c ∈ chars, p c = true) (hstop : Stops p rest) :
    (chars ++ rest).takeWhile p = chars := by
  rw [List.takeWhile_append_of_pos hall]
  cases rest with
  | nil => simp
  | cons c rest => rw [List.takeWhile_cons_of_neg (by simp [hstop c rfl]), List.append_nil]

theorem dropWhile_append_of_stops {p : Char → Bool} {chars rest : List Char}
    (hall : ∀ c ∈ chars, p c = true) (hstop : Stops p rest) :
    (chars ++ rest).dropWhile p = rest := by
  rw [List.dropWhile_append_of_pos hall]
  cases rest with
  | nil => rfl
  | cons c rest => rw [List.dropWhile_cons_of_neg (by simp [hstop c rfl])]

theorem hasBadDots_iff (chars : List Char) :
    hasBadDots chars = true ↔ ['.', '.'] <:+: chars ∨ ['.'] <:+ chars := by
  fun_induction hasBadDots chars with
  | case1 => simp
  | case2 => simp
  | case3 rest => exact iff_of_true rfl (Or.inl ⟨[], rest, rfl⟩)
  | case4 c rest hone htwo ih =>
    have hstarts : ¬ ['.', '.'] <+: c :: rest := by
      intro hdots
      obtain ⟨after, heq⟩ := hdots
      simp only [List.cons_append, List.nil_append, List.cons.injEq] at heq
      exact htwo after heq.1.symm heq.2.symm
    have hwhole : ['.'] ≠ c :: rest := by
      intro heq
      simp only [List.cons.injEq] at heq
      exact hone heq.1.symm heq.2.symm
    rw [ih, List.infix_cons_iff, List.suffix_cons_iff]
    simp only [hstarts, hwhole, false_or]

theorem isDotted_iff (first : Char) (rest : List Char) :
    IsDotted (first :: rest) ↔ startsName first = true ∧
      (∀ c ∈ first :: rest, continuesName c = true) ∧ hasBadDots (first :: rest) = false := by
  rw [← Bool.not_eq_true, hasBadDots_iff, not_or]
  constructor
  · intro h
    obtain ⟨⟨_, _, heq, hstart⟩, hcontinue, hdouble, hfinal⟩ := h
    obtain ⟨rfl, rfl⟩ := List.cons.inj heq
    exact ⟨hstart, hcontinue, hdouble, hfinal⟩
  · intro h
    obtain ⟨hstart, hcontinue, hdouble, hfinal⟩ := h
    exact ⟨⟨first, rest, rfl, hstart⟩, hcontinue, hdouble, hfinal⟩

theorem continuesName_of_startsName {c : Char} (h : startsName c = true) :
    continuesName c = true := by
  unfold startsName at h
  unfold continuesName Char.isAlphanum
  rw [Bool.or_eq_true] at h
  rcases h with h | h <;> simp [h]

/-- The characters that are blanks, marks or quotes. -/
def specials : List Char :=
  [' ', '\t', '\n', '\r', '[', ']', '(', ')', ',', '|', '\'', '"']

theorem class_of_not_special {c : Char} (h : c ∉ specials) :
    isSpace c = false ∧ punctuation? c = none ∧ ¬ (c = '\'' ∨ c = '"') := by
  simp only [specials, List.mem_cons, not_or] at h
  refine ⟨by simp [isSpace, h], ?_, by simp [h]⟩
  unfold punctuation?
  split <;> simp_all

theorem not_special_of_class {p : Char → Bool} (hp : specials.any p = false) {c : Char}
    (h : p c = true) : c ∉ specials := by
  intro hmem
  exact List.any_eq_false.mp hp c hmem h

theorem isDigit_eq_false_of_startsName {c : Char} (h : startsName c = true) :
    c.isDigit = false := by
  rw [startsName, Bool.or_eq_true, beq_iff_eq] at h
  rcases h with h | rfl
  · rw [← Bool.not_eq_true, Char.isDigit_iff_toNat]
    change (decide ('A'.val ≤ c.val ∧ c.val ≤ 'Z'.val) ||
      decide ('a'.val ≤ c.val) && decide (c.val ≤ 'z'.val)) = true at h
    simp only [Bool.or_eq_true, Bool.and_eq_true, decide_eq_true_eq,
      UInt32.le_iff_toNat_le] at h
    have h9 : '9'.toNat = 57 := rfl
    have hA : 'A'.val.toNat = 65 := rfl
    have ha : 'a'.val.toNat = 97 := rfl
    have hc : c.toNat = c.val.toNat := rfl
    omega
  · rfl

theorem quotedText?_eq_some {quote : Char} {pos stop : Nat} {input text rest : List Char}
    (h : quotedText? quote pos input = some (text, stop, rest)) :
    ∃ body, input = body ++ quote :: rest ∧ Quotes quote body text := by
  fun_induction quotedText? quote pos input generalizing text stop rest with
  | case1 => cases h
  | case2 => cases h
  | case3 pos c tail ih =>
    obtain ⟨⟨inner, _, after⟩, hi, he⟩ := Option.map_eq_some_iff.mp h
    simp only [Prod.mk.injEq] at he
    obtain ⟨rfl, -, rfl⟩ := he
    obtain ⟨body, rfl, hbody⟩ := ih hi
    exact ⟨'\\' :: c :: body, rfl, Quotes.escaped c hbody⟩
  | case4 pos tail _ _ =>
    simp only [Option.some.injEq, Prod.mk.injEq] at h
    obtain ⟨rfl, -, rfl⟩ := h
    exact ⟨[], rfl, Quotes.nil⟩
  | case5 pos c tail hlone hescape hc ih =>
    obtain ⟨⟨inner, _, after⟩, hi, he⟩ := Option.map_eq_some_iff.mp h
    simp only [Prod.mk.injEq] at he
    obtain ⟨rfl, -, rfl⟩ := he
    obtain ⟨body, rfl, hbody⟩ := ih hi
    refine ⟨c :: body, rfl, Quotes.plain ?_ hc hbody⟩
    rintro rfl
    cases body with
    | nil => exact hescape quote after rfl rfl
    | cons d body => exact hescape d (body ++ quote :: after) rfl rfl

theorem exists_quotedText? {quote : Char} {body text : List Char} (hquote : quote ≠ '\\')
    (h : Quotes quote body text) (pos : Nat) (rest : List Char) :
    ∃ stop, quotedText? quote pos (body ++ quote :: rest) = some (text, stop, rest) := by
  induction h generalizing pos with
  | nil =>
    refine ⟨pos + quote.utf8Size, ?_⟩
    rw [List.nil_append, quotedText?, if_pos rfl]
    · exact fun h _ => hquote h
    · exact fun _ _ h _ => hquote h
  | escaped c _ ih =>
    obtain ⟨stop, hstop⟩ := ih (pos + 1 + c.utf8Size)
    refine ⟨stop, ?_⟩
    rw [List.cons_append, List.cons_append, quotedText?, hstop, Option.map_some]
  | @plain c body text hc hne _ ih =>
    obtain ⟨stop, hstop⟩ := ih (pos + c.utf8Size)
    refine ⟨stop, ?_⟩
    rw [List.cons_append, quotedText?, if_neg hne, hstop, Option.map_some]
    · exact fun h _ => hc h
    · exact fun _ _ h _ => hc h

theorem isNumeral_cons {c : Char} {digits : List Char} (hc : c = '-' ∨ c.isDigit = true)
    (hlone : ¬ (c = '-' ∧ digits = [])) (hdigits : ∀ d ∈ digits, d.isDigit = true) :
    IsNumeral (c :: digits) := by
  by_cases hminus : c = '-'
  · subst hminus
    exact IsNumeral.negative (fun hnil => hlone ⟨rfl, hnil⟩) hdigits
  · exact IsNumeral.positive (List.cons_ne_nil c digits)
      (List.forall_mem_cons.mpr ⟨hc.resolve_left hminus, hdigits⟩)

theorem IsNumeral.exists_cons {numeral : List Char} (h : IsNumeral numeral) :
    ∃ c digits, numeral = c :: digits ∧ (c = '-' ∨ c.isDigit = true) ∧
      ¬ (c = '-' ∧ digits = []) ∧ ∀ d ∈ digits, d.isDigit = true := by
  cases h with
  | negative hne hdigits => exact ⟨'-', _, rfl, Or.inl rfl, fun h => hne h.2, hdigits⟩
  | positive hne hdigits =>
    obtain ⟨c, digits, rfl⟩ := List.exists_cons_of_ne_nil hne
    obtain ⟨hc, hrest⟩ := List.forall_mem_cons.mp hdigits
    refine ⟨c, digits, rfl, Or.inr hc, ?_, hrest⟩
    intro hlone
    obtain ⟨rfl, -⟩ := hlone
    cases hc

theorem numeral_not_special {c : Char} (h : c = '-' ∨ c.isDigit = true) : c ∉ specials := by
  rcases h with rfl | h
  · decide
  · exact not_special_of_class (by decide) h

theorem spells_of_lexemesFrom {pos : Nat} {chars : List Char} {found : List Lexeme}
    (h : lexemesFrom pos chars = .ok found) : Spells chars (found.map Lexeme.token) := by
  fun_induction lexemesFrom pos chars generalizing found with
  | case1 =>
    cases h
    exact Spells.nil
  | case2 pos c rest hspace ih => exact Spells.space hspace (ih h)
  | case3 pos c rest _ mark hmark ih =>
    obtain ⟨tail, htail, rfl⟩ := exists_of_map_eq_ok h
    exact Spells.mark hmark (ih htail)
  | case4 => cases h
  | case5 pos c rest _ _ hquote text stop after htext _ ih =>
    obtain ⟨tail, htail, rfl⟩ := exists_of_map_eq_ok h
    obtain ⟨body, rfl, hbody⟩ := quotedText?_eq_some htext
    exact Spells.quoted hquote hbody (ih htail)
  | case6 => cases h
  | case7 pos c rest _ _ _ hc digits hlone =>
    rename_i ih
    obtain ⟨tail, htail, rfl⟩ := exists_of_map_eq_ok h
    have hdigits := List.all_eq_true.mp (List.all_takeWhile (p := Char.isDigit) (l := rest))
    have hspells := Spells.number (isNumeral_cons hc hlone hdigits)
      (stops_dropWhile Char.isDigit rest) (ih htail)
    rwa [List.cons_append, List.takeWhile_append_dropWhile] at hspells
  | case8 => cases h
  | case9 pos c rest _ _ _ _ hstart name =>
    rename_i hdots ih
    obtain ⟨tail, htail, rfl⟩ := exists_of_map_eq_ok h
    have hcontinue := List.all_eq_true.mp (List.all_takeWhile (p := continuesName) (l := rest))
    have hdotted : IsDotted name := (isDotted_iff c _).mpr ⟨hstart, List.forall_mem_cons.mpr
      ⟨continuesName_of_startsName hstart, hcontinue⟩, by simpa using hdots⟩
    have hspells := Spells.name hdotted (stops_dropWhile continuesName rest) (ih htail)
    rwa [List.cons_append, List.takeWhile_append_dropWhile] at hspells
  | case10 => cases h

theorem exists_lexemesFrom {chars : List Char} {tokens : List Token} (h : Spells chars tokens)
    (pos : Nat) :
    ∃ found, lexemesFrom pos chars = .ok found ∧ found.map Lexeme.token = tokens := by
  induction h generalizing pos with
  | nil => exact ⟨[], by rw [lexemesFrom], rfl⟩
  | space hspace _ ih =>
    obtain ⟨found, hfound, htokens⟩ := ih (pos + 1)
    exact ⟨found, by rw [lexemesFrom, if_pos hspace, hfound], htokens⟩
  | @mark c token rest tokens hmark _ ih =>
    obtain ⟨found, hfound, htokens⟩ := ih (pos + 1)
    have hspace : isSpace c = false := by
      unfold punctuation? at hmark
      split at hmark <;> first | rfl | cases hmark
    refine ⟨⟨token, pos⟩ :: found, ?_, by rw [List.map_cons, htokens]⟩
    rw [lexemesFrom]
    simp only [hspace, hmark, hfound]
    rfl
  | @quoted quote body text rest tokens hquote hbody _ ih =>
    have hescape : quote ≠ '\\' := by
      rcases hquote with rfl | rfl <;> decide
    obtain ⟨stop, hstop⟩ := exists_quotedText? hescape hbody (pos + 1) rest
    obtain ⟨found, hfound, htokens⟩ := ih stop
    have hspace : isSpace quote = false := by rcases hquote with rfl | rfl <;> rfl
    have hmark : punctuation? quote = none := by rcases hquote with rfl | rfl <;> rfl
    refine ⟨⟨.quoted (String.ofList text), pos⟩ :: found, ?_, by rw [List.map_cons, htokens]⟩
    rw [lexemesFrom]
    simp only [hspace, hmark, hquote, Bool.false_eq_true, if_false, if_true]
    split
    · rename_i hnone
      cases hnone.symm.trans hstop
    · rename_i htext
      cases htext.symm.trans hstop
      rw [hfound]
      rfl
  | @number numeral rest tokens hnumeral hstops _ ih =>
    obtain ⟨c, digits, rfl, hc, hlone, hdigits⟩ := hnumeral.exists_cons
    obtain ⟨found, hfound, htokens⟩ := ih (pos + 1 + digits.length)
    refine ⟨⟨.number (String.ofList (c :: digits)), pos⟩ :: found, ?_,
      by rw [List.map_cons, htokens]⟩
    obtain ⟨hspace, hmark, hquote⟩ := class_of_not_special (numeral_not_special hc)
    rw [List.cons_append, lexemesFrom]
    simp only [hspace, hmark, hquote, hc, Bool.false_eq_true, if_false, if_true,
      takeWhile_append_of_stops hdigits hstops, dropWhile_append_of_stops hdigits hstops, hlone,
      hfound]
    rfl
  | @name chars rest tokens hdotted hstops _ ih =>
    obtain ⟨c, tail, rfl, hstart⟩ := hdotted.starts
    obtain ⟨-, hcontinue, hdots⟩ := (isDotted_iff c tail).mp hdotted
    obtain ⟨found, hfound, htokens⟩ := ih (pos + (c :: tail).length)
    refine ⟨⟨.name (String.ofList (c :: tail)), pos⟩ :: found, ?_,
      by rw [List.map_cons, htokens]⟩
    obtain ⟨hspace, hmark, hquote⟩ :=
      class_of_not_special (not_special_of_class (by decide) hstart)
    have hnumeral : ¬ (c = '-' ∨ c.isDigit = true) := by
      intro hc
      rcases hc with rfl | hdigit
      · cases hstart
      · exact Bool.false_ne_true ((isDigit_eq_false_of_startsName hstart).symm.trans hdigit)
    have htail := (List.forall_mem_cons.mp hcontinue).2
    rw [List.cons_append, lexemesFrom]
    simp only [hspace, hmark, hquote, hnumeral, hstart, Bool.false_eq_true, if_false, if_true,
      takeWhile_append_of_stops htail hstops, dropWhile_append_of_stops htail hstops, hdots,
      hfound]
    rfl

/-- A text has lexemes exactly if it spells their tokens. -/
theorem lexemes_iff (text : String) (tokens : List Token) :
    (∃ found, lexemes text = .ok found ∧ found.map Lexeme.token = tokens) ↔
      tokens ≠ [] ∧ Spells text.toList tokens := by
  constructor
  · intro h
    obtain ⟨found, hfound, rfl⟩ := h
    unfold lexemes at hfound
    cases hlex : lexemesFrom 0 text.toList with
    | error e =>
      rw [hlex] at hfound
      cases hfound
    | ok all =>
      rw [hlex] at hfound
      cases all with
      | nil => cases hfound
      | cons first rest =>
        cases hfound
        exact ⟨by simp, spells_of_lexemesFrom hlex⟩
  · intro h
    obtain ⟨hne, hspells⟩ := h
    obtain ⟨found, hfound, rfl⟩ := exists_lexemesFrom hspells 0
    refine ⟨found, ?_, rfl⟩
    unfold lexemes
    rw [hfound]
    cases found with
    | nil => exact absurd rfl hne
    | cons first rest => rfl

end Callable.Reference
