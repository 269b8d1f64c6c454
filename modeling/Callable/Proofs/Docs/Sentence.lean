import Callable.Proofs.Docs.Normal
import Callable.Proofs.Docs.Squeeze
import Callable.Proofs.Text.Split

/-!
Descriptions as sentences. Squeezing is what five rewriting loops do one after the other: each of them ends,
and no later one brings back a pair that an earlier one removed. Trimming brings none back either, but the
period put at the end may: marks at the end are dropped before the blank space, so that a comma with blank
space and another mark after it is left at the end, right before the period.
-/
namespace Callable.Docs

/-- The two characters never stand side by side. -/
def Lacks (first second : Char) (text : List Char) : Prop := ¬ [first, second] <:+: text

/-- A pass over a text that leaves the second character of each pair it comes upon. -/
def rewritePass (first second : Char) : List Char → List Char
  | c :: d :: rest =>
    if c = first ∧ d = second then second :: rewritePass first second rest
    else c :: rewritePass first second (d :: rest)
  | text => text

/-- What a text becomes when passes are made over it as long as it has the pair. -/
inductive RewritesTo (first second : Char) : List Char → List Char → Prop
  | done {text : List Char} : Lacks first second text → RewritesTo first second text text
  | pass {text result : List Char} : ¬ Lacks first second text →
      RewritesTo first second (rewritePass first second text) result →
      RewritesTo first second text result

/-- What a text becomes when a loop is run for each of some pairs, one after the other. -/
inductive LoopsTo : List (Char × Char) → List Char → List Char → Prop
  | nil {text : List Char} : LoopsTo [] text text
  | cons {first second : Char} {pairs : List (Char × Char)} {text between result : List Char} :
      RewritesTo first second text between → LoopsTo pairs between result →
      LoopsTo ((first, second) :: pairs) text result

section Loop

variable {first second a b : Char} {text result : List Char}

theorem lacks_iff_isChain :
    Lacks first second text ↔ text.IsChain fun c d => ¬ (c = first ∧ d = second) := by
  rw [Lacks, List.isChain_iff_forall_rel_of_append_cons_cons]
  constructor
  · rintro h c d front back rfl ⟨rfl, rfl⟩
    exact h ⟨front, back, by simp⟩
  · rintro h ⟨front, back, rfl⟩
    exact h (List.append_assoc front [first, second] back) ⟨rfl, rfl⟩

theorem lacks_cons (c : Char) (rest : List Char) :
    Lacks first second (c :: rest) ↔
      (c = first → rest.head? ≠ some second) ∧ Lacks first second rest := by
  rw [lacks_iff_isChain, List.isChain_cons, ← lacks_iff_isChain]
  refine and_congr_left' ⟨fun h hc hhead => h second hhead ⟨hc, rfl⟩, ?_⟩
  rintro h d hd ⟨hc, rfl⟩
  exact h hc hd

theorem Lacks.part {part : List Char} (h : Lacks first second text) (hpart : part <:+: text) :
    Lacks first second part :=
  fun hpair => h (hpair.trans hpart)

theorem dropBefore_of_lacks (h : Lacks first second text) : dropBefore first second text = text :=
  dropBefore_eq_self (lacks_iff_isChain.mp h)

theorem lacks_dropBefore (text : List Char) : Lacks first second (dropBefore first second text) := by
  induction text with
  | nil => exact lacks_iff_isChain.mpr List.isChain_nil
  | cons c rest ih =>
    rw [dropBefore_cons]
    split
    · exact ih
    · rename_i hkept
      exact (lacks_cons c _).mpr ⟨fun hc hhead => hkept ⟨hc, hhead⟩, ih⟩

/-- A text still begins as it did, unless a dropped character stood there. -/
theorem head?_dropBefore {d : Char} (h : (dropBefore first second text).head? = some d) :
    text.head? = some d ∨ text.head? = some first ∧ d = second := by
  cases text with
  | nil => cases h
  | cons c rest =>
    rw [dropBefore_cons] at h
    split at h
    · rename_i hdropped
      rw [hdropped.2] at h
      exact Or.inr ⟨congrArg some hdropped.1, (Option.some.inj h).symm⟩
    · exact Or.inl h

/-- Dropping characters brings two others together only if a dropped one stood between them. -/
theorem Lacks.dropBefore (h : Lacks a b text) (hbetween : b = second → Lacks a first text) :
    Lacks a b (dropBefore first second text) := by
  induction text with
  | nil => exact h
  | cons c rest ih =>
    obtain ⟨hhead, hrest⟩ := (lacks_cons c rest).mp h
    have hdropped := ih hrest fun hb => ((lacks_cons c rest).mp (hbetween hb)).2
    rw [dropBefore_cons]
    split
    · exact hdropped
    · refine (lacks_cons c _).mpr ⟨fun hc hnext => ?_, hdropped⟩
      rcases head?_dropBefore hnext with hsame | ⟨hfirst, hb⟩
      · exact hhead hc hsame
      · exact ((lacks_cons c rest).mp (hbetween hb)).1 hc hfirst

theorem mem_dropBefore {c : Char} (hc : c ≠ first) (h : c ∈ text) : c ∈ dropBefore first second text := by
  induction text with
  | nil => cases h
  | cons d rest ih =>
    rw [dropBefore_cons]
    rcases List.mem_cons.mp h with rfl | hrest
    · rw [if_neg fun hdropped => hc hdropped.1]
      exact List.mem_cons_self
    · split
      · exact ih hrest
      · exact List.mem_cons_of_mem d (ih hrest)

theorem length_rewritePass_le (text : List Char) :
    (rewritePass first second text).length ≤ text.length := by
  fun_induction rewritePass first second text with
  | case1 c d rest _ ih => simp only [List.length_cons]; omega
  | case2 c d rest _ ih => simp only [List.length_cons] at ih ⊢; omega
  | case3 => exact le_rfl

/-- A pass shortens a text that has the pair. -/
theorem length_rewritePass_lt (h : ¬ Lacks first second text) :
    (rewritePass first second text).length < text.length := by
  fun_induction rewritePass first second text with
  | case1 c d rest _ _ =>
    have hle : (rewritePass first second rest).length ≤ rest.length := length_rewritePass_le rest
    simp only [List.length_cons]
    omega
  | case2 c d rest hother ih =>
    rw [lacks_cons, not_and_or] at h
    have hfirst : c = first → (d :: rest).head? ≠ some second :=
      fun hc hd => hother ⟨hc, Option.some.inj hd⟩
    have hlt := ih (h.resolve_left (not_not.mpr hfirst))
    simp only [List.length_cons] at hlt ⊢
    omega
  | case3 text hshort =>
    -- a text of one character or none has no pair
    refine absurd ?_ h
    rintro ⟨front, back, rfl⟩
    cases front with
    | nil => exact hshort first second back rfl
    | cons c front => cases front <;> exact hshort _ _ _ rfl

/-- A pass drops nothing but what is to be dropped. -/
theorem dropBefore_rewritePass (text : List Char) :
    dropBefore first second (rewritePass first second text) = dropBefore first second text := by
  fun_induction rewritePass first second text with
  | case1 c d rest hpair ih =>
    obtain ⟨rfl, rfl⟩ := hpair
    have htail : Docs.dropBefore c d (d :: rewritePass c d rest) = Docs.dropBefore c d (d :: rest) := by
      rw [dropBefore_cons, ih, ← dropBefore_cons]
    have hhead : (Docs.dropBefore c d (d :: rest)).head? = some d := by
      rw [dropBefore_cons]
      split
      · rename_i hdropped
        exact hdropped.2
      · rfl
    rw [htail, dropBefore_cons c, if_pos ⟨rfl, hhead⟩]
  | case2 c d rest _ ih => rw [dropBefore_cons, ih, ← dropBefore_cons]
  | case3 => rfl

/-- The loop ends on every text, and all it does is to drop the first characters of pairs. -/
theorem rewritesTo_iff : RewritesTo first second text result ↔ result = dropBefore first second text := by
  constructor
  · intro h
    induction h with
    | done hlacks => exact (dropBefore_of_lacks hlacks).symm
    | pass _ _ ih => rw [ih, dropBefore_rewritePass]
  · rintro rfl
    induction hlength : text.length using Nat.strongRecOn generalizing text with
    | ind n ih =>
      by_cases hlacks : Lacks first second text
      · rw [dropBefore_of_lacks hlacks]
        exact RewritesTo.done hlacks
      · refine RewritesTo.pass hlacks ?_
        rw [← dropBefore_rewritePass text]
        exact ih _ (hlength ▸ length_rewritePass_lt hlacks) rfl

theorem loopsTo_iff (pairs : List (Char × Char)) :
    LoopsTo pairs text result ↔
      result = pairs.foldl (fun text pair => dropBefore pair.1 pair.2 text) text := by
  induction pairs generalizing text with
  | nil =>
    constructor
    · rintro ⟨⟩
      rfl
    · rintro rfl
      exact LoopsTo.nil
  | cons pair pairs ih =>
    rw [List.foldl_cons, ← ih]
    constructor
    · rintro (_ | ⟨hfirst, hrest⟩)
      rwa [rewritesTo_iff.mp hfirst] at hrest
    · exact LoopsTo.cons (rewritesTo_iff.mpr rfl)

end Loop

/-- The pairs that squeezing removes, in its order. -/
def loosePairs : List (Char × Char) :=
  [(' ', ' '), (' ', '.'), (' ', ','), (' ', ':'), (',', '.')]

def IsSqueezed (text : List Char) : Prop := ∀ pair ∈ loosePairs, Lacks pair.1 pair.2 text

theorem isSqueezed_iff (text : List Char) :
    IsSqueezed text ↔ Lacks ' ' ' ' text ∧ Lacks ' ' '.' text ∧ Lacks ' ' ',' text ∧
      Lacks ' ' ':' text ∧ Lacks ',' '.' text := by
  unfold IsSqueezed loosePairs
  rw [List.forall_mem_cons, List.forall_mem_cons, List.forall_mem_cons, List.forall_mem_cons,
    List.forall_mem_singleton]

theorem IsSqueezed.part {text part : List Char} (h : IsSqueezed text) (hpart : part <:+: text) :
    IsSqueezed part :=
  fun pair hpair => (h pair hpair).part hpart

/-- No loop brings back what the ones before it removed. The last one drops commas, and what comes before
a point then is no blank, since a blank stood before no comma. -/
theorem isSqueezed_squeeze (text : List Char) : IsSqueezed (squeeze text) := by
  have hapart {first second a b : Char} {text : List Char} (hb : b ≠ second) (h : Lacks a b text) :
      Lacks a b (dropBefore first second text) :=
    h.dropBefore fun heq => absurd heq hb
  unfold squeeze
  simp only [List.foldl_cons, List.foldl_nil]
  generalize hdoubles : dropBefore ' ' ' ' text = doubles
  generalize hpoints : dropBefore ' ' '.' doubles = points
  generalize hcommas : dropBefore ' ' ',' points = commas
  generalize hcolons : dropBefore ' ' ':' commas = colons
  have hblank : Lacks ' ' ' ' colons := by
    rw [← hcolons, ← hcommas, ← hpoints, ← hdoubles]
    exact hapart (by decide) (hapart (by decide) (hapart (by decide) (lacks_dropBefore text)))
  have hpoint : Lacks ' ' '.' colons := by
    rw [← hcolons, ← hcommas, ← hpoints]
    exact hapart (by decide) (hapart (by decide) (lacks_dropBefore doubles))
  have hcomma : Lacks ' ' ',' colons := by
    rw [← hcolons, ← hcommas]
    exact hapart (by decide) (lacks_dropBefore points)
  have hcolon : Lacks ' ' ':' colons := hcolons ▸ lacks_dropBefore commas
  exact (isSqueezed_iff _).mpr ⟨hapart (by decide) hblank, hpoint.dropBefore fun _ => hcomma,
    hapart (by decide) hcomma, hapart (by decide) hcolon, lacks_dropBefore colons⟩

theorem squeeze_eq_self {text : List Char} (h : IsSqueezed text) : squeeze text = text := by
  obtain ⟨hblank, hpoint, hcomma, hcolon, hloose⟩ := (isSqueezed_iff text).mp h
  simp only [squeeze, List.foldl_cons, List.foldl_nil, dropBefore_of_lacks, hblank, hpoint, hcomma,
    hcolon, hloose]

theorem mem_squeeze {c : Char} (hblank : c ≠ ' ') (hcomma : c ≠ ',') {text : List Char} (h : c ∈ text) :
    c ∈ squeeze text := by
  simp only [squeeze, List.foldl_cons, List.foldl_nil]
  exact mem_dropBefore hcomma <| mem_dropBefore hblank <| mem_dropBefore hblank <|
    mem_dropBefore hblank <| mem_dropBefore hblank h

/-- What is dropped from the end goes up to a character that is kept. -/
theorem rdropWhile_eq_iff {p : Char → Bool} {text front : List Char} :
    text.rdropWhile p = front ↔ ∃ back, text = front ++ back ∧ (∀ c ∈ back, p c = true) ∧
      ∀ c ∈ front.getLast?, p c = false := by
  constructor
  · rintro rfl
    refine ⟨text.rtakeWhile p, List.rdropWhile_append_rtakeWhile.symm,
      fun c hc => List.mem_rtakeWhile_imp hc, fun c hc => ?_⟩
    obtain ⟨hne, rfl⟩ := List.mem_getLast?_eq_getLast hc
    simpa using List.rdropWhile_last_not p text hne
  · rintro ⟨back, rfl, hback, hlast⟩
    have hfront : front.rdropWhile p = front := by
      refine List.rdropWhile_eq_self_iff.mpr fun hne => ?_
      simp [hlast _ (List.getLast?_eq_some_getLast hne)]
    unfold List.rdropWhile at hfront ⊢
    rw [List.reverse_append, List.dropWhile_append_of_pos fun c hc => hback c (List.mem_reverse.mp hc),
      hfront]

/-- A comma or a semicolon. -/
def isMark (c : Char) : Bool := c == ',' || c == ';'

/-- A description as a sentence, but for the period. -/
def unended (text : List Char) : List Char :=
  Text.trimEnd ((Text.trim (squeeze text)).rdropWhile isMark)

/-- At the end there are marks after blank space after a comma. -/
def HangsComma (text : List Char) : Prop :=
  ∃ front space marks, Text.trim (squeeze text) = front ++ ',' :: (space ++ marks) ∧
    space ≠ [] ∧ (∀ c ∈ space, Text.isBlank c = true) ∧ marks ≠ [] ∧ ∀ c ∈ marks, isMark c = true

section Sentence

variable {text front : List Char}

theorem trim_eq_self_iff_ends :
    Text.trim text = text ↔ (∀ c ∈ text.head?, Text.isBlank c = false) ∧
      ∀ c ∈ text.getLast?, Text.isBlank c = false := by
  rw [Text.trim_eq_self_iff, Text.trimStart_eq_self_iff, Text.trimEnd_eq_self_iff]

theorem forall_head_of_front {p : Char → Prop} (h : ∀ c ∈ text.head?, p c) (hfront : front <+: text) :
    ∀ c ∈ front.head?, p c := by
  intro c hc
  cases front with
  | nil => cases hc
  | cons d front =>
    obtain ⟨back, rfl⟩ := hfront
    exact h c hc

theorem trim_trim (text : List Char) : Text.trim (Text.trim text) = Text.trim text := by
  have hend : (Text.trimStart text).rdropWhile Text.isBlank = Text.trim text := rfl
  obtain ⟨space, -, -, hlast⟩ := rdropWhile_eq_iff.mp hend
  have hhead : ∀ c ∈ (Text.trimStart text).head?, Text.isBlank c = false := by
    intro c hc
    have hnot := List.head?_dropWhile_not Text.isBlank text
    rw [Text.trimStart, Option.mem_def] at hc
    rwa [hc] at hnot
  exact trim_eq_self_iff_ends.mpr
    ⟨forall_head_of_front hhead (List.rdropWhile_prefix _ _), hlast⟩

theorem tidy_eq (text : List Char) :
    tidy text = if unended text = [] ∨ (unended text).getLast? = some '.' then unended text
      else unended text ++ ['.'] := rfl

/-- What a sentence is made of: the marks and the blank space that it loses at its end. -/
theorem exists_unended (text : List Char) :
    ∃ space marks, Text.trim (squeeze text) = unended text ++ (space ++ marks) ∧
      (∀ c ∈ space, Text.isBlank c = true) ∧ (∀ c ∈ marks, isMark c = true) ∧
      (∀ c ∈ (unended text ++ space).getLast?, isMark c = false) ∧
      ∀ c ∈ (unended text).getLast?, Text.isBlank c = false := by
  obtain ⟨marks, hmarked, hmarks, hkept⟩ :=
    rdropWhile_eq_iff.mp (rfl : (Text.trim (squeeze text)).rdropWhile isMark = _)
  have hend : ((Text.trim (squeeze text)).rdropWhile isMark).rdropWhile Text.isBlank = unended text :=
    rfl
  obtain ⟨space, hspaced, hspace, hlast⟩ := rdropWhile_eq_iff.mp hend
  rw [hspaced] at hmarked hkept
  exact ⟨space, marks, by rw [hmarked, List.append_assoc], hspace, hmarks, hkept, hlast⟩

theorem prefix_unended (text : List Char) : unended text <+: Text.trim (squeeze text) := by
  obtain ⟨space, marks, hwhole, -⟩ := exists_unended text
  exact hwhole ▸ List.prefix_append _ _

theorem trim_unended (text : List Char) : Text.trim (unended text) = unended text := by
  obtain ⟨-, -, -, -, -, -, hlast⟩ := exists_unended text
  have hhead := (trim_eq_self_iff_ends.mp (trim_trim (squeeze text))).1
  exact trim_eq_self_iff_ends.mpr ⟨forall_head_of_front hhead (prefix_unended text), hlast⟩

theorem isSqueezed_unended (text : List Char) : IsSqueezed (unended text) := by
  have htrim : Text.trim (squeeze text) <:+: squeeze text :=
    (List.rdropWhile_prefix _ _).isInfix.trans (List.dropWhile_suffix _).isInfix
  exact (isSqueezed_squeeze text).part ((prefix_unended text).isInfix.trans htrim)

theorem getLast?_unended_iff (text : List Char) :
    (unended text).getLast? = some ',' ↔ HangsComma text := by
  constructor
  · intro hcomma
    obtain ⟨space, marks, hwhole, hspace, hmarks, hkept, -⟩ := exists_unended text
    obtain ⟨front, hfront⟩ := List.getLast?_eq_some_iff.mp hcomma
    have hgap : space ≠ [] := by
      rintro rfl
      rw [List.append_nil] at hkept
      exact absurd (hkept ',' hcomma) (by decide)
    refine ⟨front, space, marks, ?_, hgap, hspace, ?_, hmarks⟩
    · rw [hwhole, hfront, List.append_assoc, List.singleton_append]
    · -- blank space at the very end would have been trimmed
      rintro rfl
      have hlast := (trim_eq_self_iff_ends.mp (trim_trim (squeeze text))).2
      have hblank := hspace _ (List.getLast_mem hgap)
      rw [hwhole, List.append_nil, List.getLast?_append_of_ne_nil _ hgap,
        List.getLast?_eq_some_getLast hgap] at hlast
      exact absurd (hblank.symm.trans (hlast _ rfl)) (by decide)
  · rintro ⟨front, space, marks, hwhole, hgap, hspace, -, hmarks⟩
    have hspaced := hspace _ (List.getLast_mem hgap)
    have hblank : isMark (space.getLast hgap) = false := by
      rw [isMark, Bool.or_eq_false_iff, beq_eq_false_iff_ne, beq_eq_false_iff_ne]
      exact ⟨fun heq => absurd (heq ▸ hspaced) (by decide), fun heq => absurd (heq ▸ hspaced) (by decide)⟩
    have hmarked : (Text.trim (squeeze text)).rdropWhile isMark = front ++ ',' :: space := by
      refine rdropWhile_eq_iff.mpr ⟨marks, by rw [hwhole]; simp, hmarks, ?_⟩
      rw [List.getLast?_append_of_ne_nil _ (List.cons_ne_nil ',' space),
        List.getLast?_cons_of_ne_nil hgap, List.getLast?_eq_some_getLast hgap]
      rintro _ ⟨⟩
      exact hblank
    have hunended : unended text = front ++ [','] := by
      have hend : (front ++ ',' :: space).rdropWhile Text.isBlank = front ++ [','] :=
        rdropWhile_eq_iff.mpr ⟨space, by simp, hspace, by simp; decide⟩
      rw [← hend, ← hmarked]
      rfl
    rw [hunended, List.getLast?_concat]

/-- A squeezed text with a period put at its end is squeezed unless it ends in a blank or in a comma. -/
theorem isSqueezed_append_period (h : IsSqueezed text) (hblank : text.getLast? ≠ some ' ') :
    IsSqueezed (text ++ ['.']) ↔ text.getLast? ≠ some ',' := by
  have hlacks (first second : Char) (hpair : Lacks first second text) :
      Lacks first second (text ++ ['.']) ↔ ¬ (text.getLast? = some first ∧ '.' = second) := by
    rw [lacks_iff_isChain, List.isChain_append, ← lacks_iff_isChain]
    constructor
    · rintro ⟨-, -, hjoint⟩ ⟨hlast, hdot⟩
      exact hjoint first hlast '.' rfl ⟨rfl, hdot⟩
    · intro hjoint
      refine ⟨hpair, List.isChain_singleton _, ?_⟩
      rintro c hc _ ⟨⟩ ⟨rfl, hdot⟩
      exact hjoint ⟨hc, hdot⟩
  obtain ⟨hdouble, hpoint, hcomma, hcolon, hloose⟩ := (isSqueezed_iff text).mp h
  rw [isSqueezed_iff, hlacks _ _ hdouble, hlacks _ _ hpoint, hlacks _ _ hcomma, hlacks _ _ hcolon,
    hlacks _ _ hloose]
  simp [hblank]

/-- A text that is tidy and ends in a period stays as it is. -/
theorem tidy_eq_self (hsqueezed : IsSqueezed text) (htrim : Text.trim text = text)
    (hperiod : text.getLast? = some '.') : tidy text = text := by
  have hlast {p : Char → Bool} (hp : p '.' = false) : text.rdropWhile p = text := by
    refine rdropWhile_eq_iff.mpr ⟨[], by simp, by simp, ?_⟩
    rw [hperiod]
    rintro _ ⟨⟩
    exact hp
  have hunended : unended text = text := by
    rw [unended, squeeze_eq_self hsqueezed, htrim, hlast rfl]
    exact hlast (p := Text.isBlank) (by decide)
  rw [tidy_eq, hunended, if_pos (Or.inr hperiod)]

/-- A description of which nothing is left had nothing to say. -/
theorem forall_of_unended_eq_nil (h : unended text = []) :
    ∀ c ∈ text, Text.isBlank c = true ∨ isMark c = true := by
  intro c hc
  by_contra hneither
  obtain ⟨hblank, hmark⟩ := not_or.mp hneither
  obtain ⟨space, marks, hwhole, hspace, hmarks, -⟩ := exists_unended text
  have hkept : c ∈ Text.trim (squeeze text) := by
    refine Text.mem_trim (Bool.eq_false_iff.mpr hblank) (mem_squeeze ?_ ?_ hc)
    · rintro rfl
      exact hblank (by decide)
    · rintro rfl
      exact hmark (by decide)
  rw [hwhole, h, List.nil_append] at hkept
  rcases List.mem_append.mp hkept with hin | hin
  · exact hblank (hspace c hin)
  · exact hmark (hmarks c hin)

/-- What the description of an entry can be, given what the entry tells. If it is nothing, all that the entry
tells is blank space and marks; else it is a trimmed text with a period at its end. That text has none of the
loose pairs and is not changed by tidying it again, unless a comma hung at the end of what the entry tells. -/
def Tidied (told : List Char) (description : Option String) : Prop :=
  (description = none ∧ ∀ c ∈ told, Text.isBlank c = true ∨ isMark c = true) ∨
    ∃ text, description = some (String.ofList text) ∧ Text.trim text = text ∧
      text.getLast? = some '.' ∧ (IsSqueezed text ∧ tidy text = text ↔ ¬ HangsComma told)

theorem tidied_tidy (told : List Char) : Tidied told (nonEmpty (tidy told)) := by
  have htrim := trim_unended told
  have hsqueezed := isSqueezed_unended told
  by_cases hempty : unended told = []
  · left
    refine ⟨?_, forall_of_unended_eq_nil hempty⟩
    rw [nonEmpty, if_pos]
    rw [tidy_eq, if_pos (Or.inl hempty), hempty]
  · right
    by_cases hperiod : (unended told).getLast? = some '.'
    · have hsame : tidy told = unended told := by rw [tidy_eq, if_pos (Or.inr hperiod)]
      rw [hsame, nonEmpty, if_neg hempty]
      refine ⟨_, rfl, htrim, hperiod, iff_of_true ⟨hsqueezed, tidy_eq_self hsqueezed htrim hperiod⟩ ?_⟩
      rw [← getLast?_unended_iff, hperiod]
      decide
    · have hended : tidy told = unended told ++ ['.'] := by
        rw [tidy_eq, if_neg (not_or.mpr ⟨hempty, hperiod⟩)]
      obtain ⟨hhead, hlast⟩ := trim_eq_self_iff_ends.mp htrim
      have hblank : (unended told).getLast? ≠ some ' ' := fun heq => absurd (hlast ' ' heq) (by decide)
      have hend : (unended told ++ ['.']).getLast? = some '.' := List.getLast?_concat
      have htrimmed : Text.trim (unended told ++ ['.']) = unended told ++ ['.'] := by
        refine trim_eq_self_iff_ends.mpr ⟨?_, ?_⟩
        · rw [List.head?_append_of_ne_nil _ hempty]
          exact hhead
        · rw [hend]
          rintro _ ⟨⟩
          decide
      rw [hended, nonEmpty, if_neg (List.append_ne_nil_of_left_ne_nil hempty _),
        ← getLast?_unended_iff]
      exact ⟨_, rfl, htrimmed, hend, (and_iff_left_of_imp fun h => tidy_eq_self h htrimmed hend).trans
        (isSqueezed_append_period hsqueezed hblank)⟩

end Sentence

/-- The rewriting loops end on every text, and the descriptions of the entries on parameters come out tidied. -/
theorem descriptions_tidied {limits : Reference.Limits} {scope : Scope} {docstring : String}
    {docs results : Docs} (h : (normalize limits scope docstring docs).outcome = .ok results) :
    (∀ text result, LoopsTo loosePairs text result ↔ result = squeeze text) ∧
      List.Forall₂ (fun doc q => Tidied (documentedDefault doc).1 q.description)
        docs.inputs results.inputs := by
  refine ⟨fun text result => loopsTo_iff loosePairs, ?_⟩
  unfold normalize at h
  simp only [Logged.bind_eq_ok_iff, Logged.outcome_pure] at h
  obtain ⟨inputs, hinputs, outputs, -, hresults⟩ := h
  cases hresults
  refine (normalizeInputs_eq_ok hinputs).imp fun doc q hq => ?_
  obtain ⟨reference, default, -, rfl⟩ := normalizeInput_eq_ok hq
  dsimp only
  exact tidied_tidy (documentedDefault doc).1

/-- An entry whose description is in need of every loop. -/
def rangeDocs : Docs where
  inputs := [{ name := "range", description := some "  The  bounds ,. low : high ; " }]

theorem descriptions_tidied_range :
    ∃ results, (normalize ⟨100, 3⟩ (Registry.new "tables").scope "range" rangeDocs).outcome = .ok results ∧
      results.inputs.map InputDoc.description = [some "The bounds. low: high."] ∧
      List.Forall₂ (fun doc q => Tidied (documentedDefault doc).1 q.description)
        rangeDocs.inputs results.inputs := by
  have hnormal : (normalize ⟨100, 3⟩ (Registry.new "tables").scope "range" rangeDocs).outcome = .ok {
      text := some "range"
      inputs := [{
        name := "range", description := some "The bounds. low: high.", optional := some false
        positional := some true }] } := by
    decide +kernel
  exact ⟨_, hnormal, rfl, (descriptions_tidied hnormal).2⟩

/-- A comma that hangs at the end stays there, before the period. -/
theorem not_descriptions_tidied :
    ¬ ∀ (r : Registry), r.Reached → ∀ (limits : Reference.Limits) (docstring : String)
      (docs results : Docs), (normalize limits r.scope docstring docs).outcome = .ok results →
      ∀ q ∈ results.inputs, q.description = none ∨
        ∃ text, q.description = some (String.ofList text) ∧ Text.trim text = text ∧
          text.getLast? = some '.' ∧ IsSqueezed text ∧ tidy text = text := by
  intro hall
  have hr : (Registry.new "tables").Reached := ⟨"tables", [], rfl⟩
  have hnormal : (normalize ⟨100, 3⟩ (Registry.new "tables").scope "doc"
      { inputs := [{ name := "x", description := some "a, ;" }] }).outcome = .ok {
        text := some "doc"
        inputs := [{
          name := "x", description := some "a,.", optional := some false, positional := some true }] } := by
    decide +kernel
  rcases hall (Registry.new "tables") hr ⟨100, 3⟩ "doc" _ _ hnormal _ (List.mem_singleton_self _) with
    hnone | ⟨text, hdescription, -, -, hsqueezed, -⟩
  · cases hnone
  · have htext : text = "a,.".toList := by
      rw [Option.some.inj hdescription, String.toList_ofList]
    subst htext
    exact hsqueezed (',', '.') (by decide) ⟨['a'], [], by decide⟩

end Callable.Docs
