import Callable.Proofs.Reference.Blame
import Callable.Proofs.Text.Bytes

/-!
The bytes at which lexemes start and errors are noticed. Up to such a byte the text spells tokens; there a
character begins, or the text ends, and what the lexeme or the error says is what the text goes on with.
-/
namespace Callable.Reference

open Text (byteLength byteLength_append IsAscii byteLength_of_isAscii)

theorem isAscii_isDigit : IsAscii Char.isDigit := by
  intro c h
  rw [Char.utf8Size_eq_one_iff, UInt32.le_iff_toNat_le]
  exact Nat.le_trans (Char.isDigit_iff_toNat.mp h).2 (by decide)

theorem isAscii_isAlpha : IsAscii Char.isAlpha := by
  intro c h
  change (decide ('A'.val ≤ c.val ∧ c.val ≤ 'Z'.val) ||
    decide ('a'.val ≤ c.val) && decide (c.val ≤ 'z'.val)) = true at h
  rw [Char.utf8Size_eq_one_iff, UInt32.le_iff_toNat_le]
  simp only [Bool.or_eq_true, Bool.and_eq_true, decide_eq_true_eq, UInt32.le_iff_toNat_le] at h
  rcases h with h | h
  · exact Nat.le_trans h.2 (by decide)
  · exact Nat.le_trans h.2 (by decide)

theorem isAscii_continuesName : IsAscii continuesName := by
  intro c h
  change (((c.isAlpha || c.isDigit) || c == '_') || c == '.') = true at h
  simp only [Bool.or_eq_true, beq_iff_eq] at h
  rcases h with ((h | h) | rfl) | rfl
  · exact isAscii_isAlpha c h
  · exact isAscii_isDigit c h
  · rfl
  · rfl

theorem isAscii_startsName : IsAscii startsName :=
  isAscii_continuesName.mono fun _ => continuesName_of_startsName

theorem isAscii_specials : IsAscii specials.contains := by
  intro c h
  have hall : specials.all (·.utf8Size == 1) = true := by decide
  exact beq_iff_eq.mp (List.all_eq_true.mp hall c (List.contains_iff_mem.mp h))

theorem isAscii_of_not_special {p : Char → Bool} (h : ∀ c ∉ specials, p c = false) : IsAscii p := by
  refine isAscii_specials.mono fun c hc => ?_
  rw [List.contains_iff_mem]
  exact Decidable.byContradiction fun hmem => Bool.false_ne_true ((h c hmem).symm.trans hc)

theorem isAscii_isSpace : IsAscii isSpace :=
  isAscii_of_not_special fun _ hc => (class_of_not_special hc).1

theorem isAscii_punctuation : IsAscii fun c => (punctuation? c).isSome :=
  isAscii_of_not_special fun _ hc => by rw [(class_of_not_special hc).2.1]; rfl

theorem isAscii_quote : IsAscii fun c => c = '\'' ∨ c = '"' :=
  isAscii_of_not_special fun _ hc => decide_eq_false (class_of_not_special hc).2.2

theorem isAscii_numeral : IsAscii fun c => c = '-' ∨ c.isDigit = true := by
  intro c h
  rcases of_decide_eq_true h with rfl | h
  · rfl
  · exact isAscii_isDigit c h

/-- The text begins with the token, in front of others. -/
def StartsWith (token : Token) (rest : List Char) : Prop :=
  Stops isSpace rest ∧ ∃ more, Spells rest (token :: more)

/-- The text begins with something that is no token. -/
inductive Misspells : Misspelling → List Char → Prop
  | strayCharacter {c : Char} {rest : List Char} : isSpace c = false → punctuation? c = none →
      ¬ (c = '\'' ∨ c = '"') → ¬ (c = '-' ∨ c.isDigit = true) → startsName c = false →
      Misspells (.strayCharacter c) (c :: rest)
  | openString {quote : Char} {rest : List Char} : quote = '\'' ∨ quote = '"' →
      (∀ body text after, Quotes quote body text → rest ≠ body ++ quote :: after) →
      Misspells .openString (quote :: rest)
  | loneMinus {rest : List Char} : Stops Char.isDigit rest → Misspells .loneMinus ('-' :: rest)
  | badDots {first : Char} {chars rest : List Char} : startsName first = true →
      (∀ c ∈ chars, continuesName c = true) → Stops continuesName rest →
      ¬ IsDotted (first :: chars) →
      Misspells (.badDots (String.ofList (first :: chars))) (first :: chars ++ rest)

/-- At a byte, counted from that of the text, something of a kind begins after a part that spells
tokens. -/
def Begins (pos : Nat) (text : List Char) (start : Nat) (kind : List Char → Prop) : Prop :=
  ∃ front rest before, text = front ++ rest ∧ pos + byteLength front = start ∧
    Spells front before ∧ kind rest

/-- Lexemes start where their tokens stand, and what is misspelt stands where it is noticed. -/
def Located (pos : Nat) (text : List Char) : Except Misspelt (List Lexeme) → Prop
  | .ok found => ∀ lexeme ∈ found, Begins pos text lexeme.start (StartsWith lexeme.token)
  | .error (start, what) => Begins pos text start (Misspells what)

theorem begins_self (pos : Nat) {text : List Char} {kind : List Char → Prop} (h : kind text) :
    Begins pos text pos kind := ⟨[], text, [], rfl, rfl, .nil, h⟩

theorem Stops.of_front {p : Char → Bool} {front rest : List Char} (h : Stops p rest)
    (hfront : front <+: rest) : Stops p front := by
  obtain ⟨after, rfl⟩ := hfront
  intro c hc
  exact h c (by rw [List.head?_append, hc]; rfl)

theorem stops_cons {p : Char → Bool} {c : Char} (h : ¬ p c = true) (rest : List Char) :
    Stops p (c :: rest) := by
  rintro _ ⟨⟩
  exact Bool.eq_false_iff.mpr h

/-- The taken part spells the tokens before whatever the rest begins with. -/
def Carries (taken rest : List Char) (tokens : List Token) : Prop :=
  ∀ front before, front <+: rest → Spells front before → Spells (taken ++ front) (tokens ++ before)

section Steps

variable {pos next start : Nat} {taken rest : List Char} {tokens : List Token}

theorem Begins.after {kind : List Char → Prop} (h : Begins next rest start kind)
    (hnext : next = pos + byteLength taken) (hcarries : Carries taken rest tokens) :
    Begins pos (taken ++ rest) start kind := by
  obtain ⟨front, others, before, rfl, hstart, hspells, hkind⟩ := h
  refine ⟨taken ++ front, others, tokens ++ before, (List.append_assoc ..).symm, ?_,
    hcarries front before (List.prefix_append front others) hspells, hkind⟩
  rw [byteLength_append, ← Nat.add_assoc, ← hnext, hstart]

/-- A token is put in front of the lexemes after it. -/
theorem Located.cons {token : Token} {outcome : Except Misspelt (List Lexeme)}
    (h : Located next rest outcome) (houtcome : outcome = lexemesFrom next rest)
    (hnext : next = pos + byteLength taken) (hcarries : Carries taken rest [token])
    (hblank : Stops isSpace (taken ++ rest)) :
    Located pos (taken ++ rest) ((⟨token, pos⟩ :: ·) <$> outcome) := by
  cases houtcome' : outcome with
  | error e =>
    rw [houtcome'] at h
    exact Begins.after h hnext hcarries
  | ok found =>
    rw [houtcome'] at h
    have hspells := spells_of_lexemesFrom (houtcome.symm.trans houtcome')
    refine List.forall_mem_cons.mpr ⟨?_, ?_⟩
    · exact begins_self pos ⟨hblank, _, hcarries rest _ List.prefix_rfl hspells⟩
    · intro lexeme hmem
      exact (h lexeme hmem).after hnext hcarries

theorem Located.skip {c : Char} {outcome : Except Misspelt (List Lexeme)}
    (h : Located (pos + 1) rest outcome) (hspace : isSpace c = true) :
    Located pos (c :: rest) outcome := by
  have hcarries : Carries [c] rest [] := fun front before _ hfront => .space hspace hfront
  have hnext : pos + 1 = pos + byteLength [c] := by
    rw [byteLength, byteLength, isAscii_isSpace c hspace]
  cases outcome with
  | error e => exact Begins.after h hnext hcarries
  | ok found => exact fun lexeme hmem => (h lexeme hmem).after hnext hcarries

end Steps

theorem byteLength_of_quotedText? {quote : Char} {pos stop : Nat} {input text rest : List Char}
    (h : quotedText? quote pos input = some (text, stop, rest)) :
    stop + byteLength rest = pos + byteLength input := by
  fun_induction quotedText? quote pos input generalizing text stop rest with
  | case1 => cases h
  | case2 => cases h
  | case3 pos c tail ih =>
    obtain ⟨⟨inner, _, after⟩, hi, he⟩ := Option.map_eq_some_iff.mp h
    simp only [Prod.mk.injEq] at he
    obtain ⟨-, rfl, rfl⟩ := he
    have hbackslash : '\\'.utf8Size = 1 := rfl
    rw [ih hi, byteLength, byteLength, hbackslash]
    omega
  | case4 pos tail _ _ =>
    simp only [Option.some.injEq, Prod.mk.injEq] at h
    obtain ⟨-, rfl, rfl⟩ := h
    rw [byteLength, Nat.add_assoc]
  | case5 pos c tail _ _ _ ih =>
    obtain ⟨⟨inner, _, after⟩, hi, he⟩ := Option.map_eq_some_iff.mp h
    simp only [Prod.mk.injEq] at he
    obtain ⟨-, rfl, rfl⟩ := he
    rw [ih hi, byteLength, Nat.add_assoc]

/-- Without a closing quote the text is no string. -/
theorem not_quotes_of_none {quote : Char} {pos : Nat} {input : List Char} (hquote : quote ≠ '\\')
    (h : quotedText? quote pos input = none) {body text : List Char} (hbody : Quotes quote body text)
    (after : List Char) : input ≠ body ++ quote :: after := by
  rintro rfl
  obtain ⟨stop, hstop⟩ := exists_quotedText? hquote hbody pos after
  cases h.symm.trans hstop

theorem byteLength_numeral {c : Char} {digits : List Char} (hc : c = '-' ∨ c.isDigit = true)
    (hdigits : ∀ d ∈ digits, d.isDigit = true) : byteLength (c :: digits) = 1 + digits.length := by
  rw [byteLength, isAscii_numeral c (decide_eq_true hc), byteLength_of_isAscii isAscii_isDigit hdigits]

theorem forall_takeWhile (p : Char → Bool) (rest : List Char) : ∀ c ∈ rest.takeWhile p, p c = true :=
  List.all_eq_true.mp List.all_takeWhile

theorem cons_takeWhile_dropWhile (p : Char → Bool) (c : Char) (rest : List Char) :
    c :: rest = c :: rest.takeWhile p ++ rest.dropWhile p := by
  rw [List.cons_append, List.takeWhile_append_dropWhile]

/-- Where the lexemes of a text start, and where a text is misspelt. -/
theorem located_lexemesFrom (pos : Nat) (text : List Char) :
    Located pos text (lexemesFrom pos text) := by
  fun_induction lexemesFrom pos text with
  | case1 => exact List.forall_mem_nil _
  | case2 pos c rest hspace ih => exact ih.skip hspace
  | case3 pos c rest hspace mark hmark ih =>
    have hsome : (punctuation? c).isSome = true := by rw [hmark]; rfl
    have hsize : byteLength [c] = 1 := isAscii_punctuation c hsome
    have hcarries : Carries [c] rest [mark] := fun front before _ hfront => .mark hmark hfront
    exact ih.cons rfl (by rw [hsize]) hcarries (stops_cons hspace _)
  | case4 pos c rest hspace hmark hquote hnone =>
    have hescape : c ≠ '\\' := by rcases hquote with rfl | rfl <;> decide
    exact begins_self pos (.openString hquote fun body text after hbody =>
      not_quotes_of_none hescape hnone hbody after)
  | case5 pos c rest hspace hmark hquote text stop after htext _ ih =>
    obtain ⟨body, rfl, hbody⟩ := quotedText?_eq_some htext
    have hstop := byteLength_of_quotedText? htext
    have hcarries : Carries (c :: (body ++ [c])) after [.quoted (String.ofList text)] := by
      intro front before _ hfront
      have hspells := Spells.quoted hquote hbody hfront
      rwa [← List.singleton_append (l := front), ← List.append_assoc, ← List.cons_append] at hspells
    have hsplit : c :: (body ++ c :: after) = c :: (body ++ [c]) ++ after := by
      rw [List.cons_append, List.append_assoc, List.singleton_append]
    have hsize : c.utf8Size = 1 := isAscii_quote c (decide_eq_true hquote)
    have hnext : stop = pos + byteLength (c :: (body ++ [c])) := by
      simp only [byteLength, byteLength_append, hsize] at hstop ⊢
      omega
    rw [hsplit]
    exact ih.cons rfl hnext hcarries (stops_cons hspace _)
  | case6 pos c rest hspace hmark hquote hc digits hlone =>
    obtain ⟨rfl, hdigits⟩ := hlone
    have hstops := stops_dropWhile Char.isDigit rest
    have hrest : digits ++ rest.dropWhile Char.isDigit = rest := List.takeWhile_append_dropWhile
    rw [hdigits, List.nil_append] at hrest
    rw [hrest] at hstops
    exact begins_self pos (.loneMinus hstops)
  | case7 pos c rest hspace hmark hquote hc digits hlone ih =>
    have hdigits := forall_takeWhile Char.isDigit rest
    have hstops := stops_dropWhile Char.isDigit rest
    have hcarries : Carries (c :: digits) (rest.dropWhile Char.isDigit)
        [.number (String.ofList (c :: digits))] := fun front before hbegins hfront =>
      .number (isNumeral_cons hc hlone hdigits) (hstops.of_front hbegins) hfront
    rw [cons_takeWhile_dropWhile Char.isDigit c rest]
    refine ih.cons rfl ?_ hcarries (stops_cons hspace _)
    rw [byteLength_numeral hc hdigits, Nat.add_assoc]
  | case8 pos c rest hspace hmark hquote hc hstart name hdots =>
    have hdotted : ¬ IsDotted name := by
      intro h
      have hnone := ((isDotted_iff c _).mp h).2.2
      exact Bool.false_ne_true (hnone.symm.trans hdots)
    rw [cons_takeWhile_dropWhile continuesName c rest]
    exact begins_self pos (.badDots hstart (forall_takeWhile continuesName rest)
      (stops_dropWhile continuesName rest) hdotted)
  | case9 pos c rest hspace hmark hquote hc hstart name hdots ih =>
    have hall : ∀ d ∈ name, continuesName d = true := List.forall_mem_cons.mpr
      ⟨continuesName_of_startsName hstart, forall_takeWhile continuesName rest⟩
    have hdotted : IsDotted name :=
      (isDotted_iff c _).mpr ⟨hstart, hall, Bool.eq_false_iff.mpr hdots⟩
    have hstops := stops_dropWhile continuesName rest
    have hcarries : Carries name (rest.dropWhile continuesName) [.name (String.ofList name)] :=
      fun front before hbegins hfront => .name hdotted (hstops.of_front hbegins) hfront
    rw [cons_takeWhile_dropWhile continuesName c rest]
    refine ih.cons rfl ?_ hcarries (stops_cons hspace _)
    rw [byteLength_of_isAscii isAscii_continuesName hall]
  | case10 pos c rest hspace hmark hquote hc hstart =>
    exact begins_self pos (.strayCharacter (Bool.eq_false_iff.mpr hspace) hmark hquote hc
      (Bool.eq_false_iff.mpr hstart))

/-- What a text goes on with, after its front, at the byte where a malformation is noticed. -/
def Malformation.Stands (front rest : List Char) : Malformation → Prop
  | .misspelt .empty => front = [] ∧ Spells rest []
  | .misspelt what => Misspells what rest
  | .unexpected _ (some token) => StartsWith token rest
  | .unexpected _ none => rest = []
  | .integerRange text =>
    StartsWith (.number text) rest ∧ Word.fitsSigned (integerOf text.toList) = false

theorem lexemesFrom_of_lexemes {text : String} {input : List Lexeme} (h : lexemes text = .ok input) :
    lexemesFrom 0 text.toList = .ok input := by
  unfold lexemes at h
  cases hlex : lexemesFrom 0 text.toList with
  | error e =>
    rw [hlex] at h
    cases h
  | ok found =>
    rw [hlex] at h
    cases found <;> cases h
    rfl

theorem stands_of_misspelt {text : String} {position : Nat} {what : Misspelling}
    (h : lexemes text = .error (position, what)) :
    ∃ front rest before, text.toList = front ++ rest ∧ byteLength front = position ∧
      Spells front before ∧ (Malformation.misspelt what).Stands front rest := by
  have hlocated := located_lexemesFrom 0 text.toList
  unfold lexemes at h
  cases hlex : lexemesFrom 0 text.toList with
  | error e =>
    rw [hlex] at h hlocated
    cases h
    obtain ⟨front, rest, before, htext, hstart, hspells, hwhat⟩ := hlocated
    refine ⟨front, rest, before, htext, (Nat.zero_add _).symm.trans hstart, hspells, ?_⟩
    cases hwhat with
    | strayCharacter h₁ h₂ h₃ h₄ h₅ => exact .strayCharacter h₁ h₂ h₃ h₄ h₅
    | openString hquote hopen => exact .openString hquote hopen
    | loneMinus hstops => exact .loneMinus hstops
    | badDots hstart hall hstops hdotted => exact .badDots hstart hall hstops hdotted
  | ok found =>
    rw [hlex] at h
    cases found <;> cases h
    exact ⟨[], text.toList, [], rfl, rfl, .nil, rfl, spells_of_lexemesFrom hlex⟩

theorem stands_of_lexeme {text : String} {input : List Lexeme} (h : lexemes text = .ok input)
    {lexeme : Lexeme} (hmem : lexeme ∈ input) :
    ∃ front rest before, text.toList = front ++ rest ∧ byteLength front = lexeme.start ∧
      Spells front before ∧ StartsWith lexeme.token rest := by
  have hlocated := located_lexemesFrom 0 text.toList
  rw [lexemesFrom_of_lexemes h] at hlocated
  obtain ⟨front, rest, before, htext, hstart, hkind⟩ := hlocated lexeme hmem
  exact ⟨front, rest, before, htext, (Nat.zero_add _).symm.trans hstart, hkind⟩

/-- Where a reference is malformed, what is wrong with it stands there. -/
theorem stands_of_decode {scope : Scope} {limits : Limits} {text : String} {e : TypeError}
    {position : Nat} {what : Malformation} (h : decode limits scope text = .error e)
    (hcause : e.cause = .malformed position what) :
    ∃ front rest before, text.toList = front ++ rest ∧ byteLength front = position ∧
      Spells front before ∧ what.Stands front rest := by
  rcases decode_eq_error h with ⟨-, rfl⟩ | ⟨_, _, hlex, rfl⟩ | ⟨input, refusal, hlex, hblames, rfl⟩
  · cases hcause
  · cases hcause
    exact stands_of_misspelt hlex
  · cases hblames with
    | lexeme expected hmem =>
      cases hcause
      exact stands_of_lexeme hlex hmem
    | ending expected =>
      cases hcause
      refine ⟨text.toList, [], _, (List.append_nil _).symm, Text.byteLength_toList text,
        spells_of_lexemesFrom (lexemesFrom_of_lexemes hlex), rfl⟩
    | integerRange hmem hrange =>
      cases hcause
      obtain ⟨front, rest, before, htext, hstart, hspells, hnumber⟩ := stands_of_lexeme hlex hmem
      exact ⟨front, rest, before, htext, hstart, hspells, hnumber, hrange⟩
    | tooDeep => cases hcause
    | unregistered _ _ => cases hcause
    | unknownGeneric _ _ => cases hcause
    | arity _ _ _ => cases hcause

end Callable.Reference
