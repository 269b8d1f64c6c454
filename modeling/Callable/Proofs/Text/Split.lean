import Callable.Proofs.Docs.Line
import Callable.Text.Letters
import Mathlib.Data.List.DropRight

/-!
Texts that are taken apart where they were put together. Trimming removes blank space put before a
trimmed text; a cut finds the first place of its pattern; lines and words are those that were joined.
-/
namespace Callable.Text

def blankRanges : List (Nat × Nat) :=
  [(9, 13), (0x20, 0x20), (0x85, 0x85), (0xA0, 0xA0), (0x1680, 0x1680), (0x2000, 0x200A),
    (0x2028, 0x2029), (0x202F, 0x202F), (0x205F, 0x205F), (0x3000, 0x3000)]

theorem inRanges_of_isBlank {c : Char} (h : isBlank c = true) :
    inRanges blankRanges c.toNat = true := by
  simp only [isBlank, Bool.or_eq_true, Bool.and_eq_true, decide_eq_true_eq, beq_iff_eq] at h
  simp only [inRanges, blankRanges, List.any_cons, List.any_nil, Bool.or_eq_true,
    Bool.and_eq_true, decide_eq_true_eq, Bool.or_false]
  omega

/-- No range meets one of the others. -/
def areApart (ranges others : List (Nat × Nat)) : Bool :=
  ranges.all fun range => others.all fun other => range.2 < other.1 || other.2 < range.1

theorem inRanges_of_areApart {ranges others : List (Nat × Nat)} (h : areApart ranges others = true)
    {n : Nat} (hn : inRanges ranges n = true) : inRanges others n = false := by
  obtain ⟨⟨first, last⟩, hrange, hn⟩ := List.any_eq_true.mp hn
  rw [inRanges, List.any_eq_false]
  rintro ⟨begins, ends⟩ hother hmeets
  have hapart := List.all_eq_true.mp (List.all_eq_true.mp h _ hrange) _ hother
  simp only [Bool.and_eq_true, Bool.or_eq_true, decide_eq_true_eq] at hn hmeets hapart
  omega

theorem isBlank_of_isLetterOrDigit {c : Char} (h : isLetterOrDigit c = true) :
    isBlank c = false := by
  by_contra hblank
  rw [Bool.not_eq_false] at hblank
  have hranges : inRanges blankRanges c.toNat = true := inRanges_of_isBlank hblank
  unfold isLetterOrDigit at h
  split at h
  · rename_i hascii
    have hnone : ∀ n < 0x80, isBlank (Char.ofNat n) = true →
        (Char.ofNat n).isAlphanum = false := by
      decide +kernel
    have hc := hnone c.toNat hascii
    rw [Char.ofNat_toNat] at hc
    exact Bool.false_ne_true ((hc hblank).symm.trans h)
  · have hletters : areApart alphabeticRanges blankRanges = true := by decide +kernel
    have hnumbers : areApart numberRanges blankRanges = true := by decide +kernel
    rcases Bool.or_eq_true_iff.mp h with hletter | hnumber
    · exact Bool.false_ne_true ((inRanges_of_areApart hletters hletter).symm.trans hranges)
    · exact Bool.false_ne_true ((inRanges_of_areApart hnumbers hnumber).symm.trans hranges)

theorem isLetterOrDigit_of_isAlpha {c : Char} (h : c.isAlpha = true) :
    isLetterOrDigit c = true := by
  have hascii : c.toNat < 0x80 := by
    rcases Bool.or_eq_true_iff.mp h with hupper | hlower
    · have hle : c.val ≤ 90 := (of_decide_eq_true hupper).2
      have hnat : c.toNat ≤ 90 := hle
      omega
    · have hle : c.val ≤ 122 := of_decide_eq_true (Bool.and_eq_true_iff.mp hlower).2
      have hnat : c.toNat ≤ 122 := hle
      omega
  rw [isLetterOrDigit, if_pos hascii, Char.isAlphanum, h, Bool.true_or]

theorem isLetterOrDigit_of_isDigit {c : Char} (h : c.isDigit = true) :
    isLetterOrDigit c = true := by
  have hnat := Char.isDigit_iff_toNat.mp h
  have hnine : '9'.toNat = 57 := rfl
  have hascii : c.toNat < 0x80 := by omega
  rw [isLetterOrDigit, if_pos hascii, Char.isAlphanum, h, Bool.or_true]

theorem isLetterOrDigit_of_isLetter {c : Char} (h : isLetter c = true) :
    isLetterOrDigit c = true := by
  unfold isLetter at h
  unfold isLetterOrDigit
  split
  · rename_i hascii
    rw [if_pos hascii] at h
    simp [Char.isAlphanum, h]
  · rename_i hascii
    rw [if_neg hascii] at h
    rw [h, Bool.true_or]

theorem trimStart_eq_self_iff (text : List Char) :
    trimStart text = text ↔ ∀ c ∈ text.head?, isBlank c = false := by
  cases text with
  | nil => simp [trimStart]
  | cons c rest =>
    unfold trimStart
    by_cases hc : isBlank c = true
    · have hshort : (rest.dropWhile isBlank).length ≤ rest.length :=
        (List.dropWhile_suffix isBlank).length_le
      have hne : rest.dropWhile isBlank ≠ c :: rest := by
        intro heq
        rw [heq, List.length_cons] at hshort
        omega
      rw [List.dropWhile_cons_of_pos hc]
      simp [hne, hc]
    · rw [List.dropWhile_cons_of_neg hc]
      simpa using hc

theorem trimEnd_eq_self_iff (text : List Char) :
    trimEnd text = text ↔ ∀ c ∈ text.getLast?, isBlank c = false := by
  have hreverse := trimStart_eq_self_iff text.reverse
  rw [List.head?_reverse] at hreverse
  rw [← hreverse]
  exact List.reverse_eq_iff

theorem trim_eq_self_iff (text : List Char) :
    trim text = text ↔ trimStart text = text ∧ trimEnd text = text := by
  constructor
  · intro h
    have hstart : trimStart text <:+ text := List.dropWhile_suffix isBlank
    have hstop : trim text <+: trimStart text := List.rdropWhile_prefix isBlank _
    have hwhole : trimStart text = text := by
      apply hstart.eq_of_length
      have hle := hstart.length_le
      have hge := hstop.length_le
      rw [h] at hge
      omega
    refine ⟨hwhole, ?_⟩
    rw [trim, hwhole] at h
    exact h
  · rintro ⟨hstart, hstop⟩
    rw [trim, hstart, hstop]

/-- Blank space before a text is trimmed. -/
theorem trim_append_of_blank {space : List Char} (hspace : ∀ c ∈ space, isBlank c = true)
    (text : List Char) : trim (space ++ text) = trim text := by
  unfold trim trimStart
  rw [List.dropWhile_append_of_pos hspace]

theorem mem_dropWhile {p : Char → Bool} {c : Char} (hc : p c = false) {text : List Char}
    (h : c ∈ text) : c ∈ text.dropWhile p := by
  rw [← List.takeWhile_append_dropWhile (p := p) (l := text)] at h
  rcases List.mem_append.mp h with htaken | hleft
  · exact absurd ((List.mem_takeWhile_imp htaken).symm.trans hc) (by decide)
  · exact hleft

theorem mem_dropWhile_reverse {p : Char → Bool} {c : Char} (hc : p c = false) {text : List Char}
    (h : c ∈ text) : c ∈ (text.reverse.dropWhile p).reverse :=
  List.mem_reverse.mpr (mem_dropWhile hc (List.mem_reverse.mpr h))

/-- What is not blank is not trimmed. -/
theorem mem_trim {c : Char} (hc : isBlank c = false) {text : List Char} (h : c ∈ text) :
    c ∈ trim text := mem_dropWhile_reverse hc (mem_dropWhile hc h)

theorem eq_append_of_cut? {pattern text before after : List Char}
    (h : cut? pattern text = some (before, after)) : text = before ++ (pattern ++ after) := by
  induction text generalizing before with
  | nil =>
    rw [cut?] at h
    split at h
    · rename_i hempty
      cases h
      rw [hempty]
      rfl
    · cases h
  | cons c rest ih =>
    rw [cut?] at h
    split at h
    · rename_i hbegins
      cases h
      have hprefix := List.isPrefixOf_iff_prefix.mp hbegins
      rw [List.nil_append]
      exact (List.prefix_iff_eq_append.mp hprefix).symm
    · obtain ⟨⟨front, back⟩, hrest, heq⟩ := Option.map_eq_some_iff.mp h
      cases heq
      rw [ih hrest, List.cons_append]

theorem eq_append_of_dropSuffix? {pattern text head : List Char}
    (h : dropSuffix? pattern text = some head) : text = head ++ pattern := by
  unfold dropSuffix? at h
  split at h
  · rename_i hends
    cases h
    exact (List.suffix_iff_eq_append.mp (List.isSuffixOf_iff_suffix.mp hends)).symm
  · cases h

/-- A character that stands before the first `d` stands before every `d`. -/
theorem mem_of_append_eq {before after front back : List Char} {c d : Char} (hbefore : d ∉ before)
    (hne : c ≠ d) (h : before ++ c :: after = front ++ d :: back) : c ∈ front := by
  rcases List.append_eq_append_iff.mp h with ⟨between, rfl, hback⟩ | ⟨between, rfl, hback⟩
  · cases between with
    | nil => exact absurd (List.cons.inj hback).1 hne
    | cons b between =>
      rw [(List.cons.inj hback).1]
      exact List.mem_append_right before List.mem_cons_self
  · cases between with
    | nil => exact absurd (List.cons.inj hback).1.symm hne
    | cons b between =>
      rw [← (List.cons.inj hback).1] at hbefore
      exact absurd (List.mem_append_right front List.mem_cons_self) hbefore

/-- A pattern whose last character stands nowhere before is found where it was put. -/
theorem cut?_append (front : List Char) {before : List Char} {c : Char} (hfront : c ∉ front)
    (hbefore : c ∉ before) (after : List Char) :
    cut? (front ++ [c]) (before ++ (front ++ c :: after)) = some (before, after) := by
  induction before with
  | nil =>
    have hbegins : (front ++ [c]).isPrefixOf (front ++ c :: after) = true := by simp
    have hdrop : (front ++ c :: after).drop (front ++ [c]).length = after := by
      rw [List.append_cons front c after, List.drop_left]
    rw [List.nil_append]
    cases htext : front ++ c :: after with
    | nil => simp at htext
    | cons d rest =>
      rw [htext] at hbegins hdrop
      rw [cut?, if_pos hbegins, hdrop]
  | cons b rest ih =>
    have hb : c ≠ b := List.ne_of_not_mem_cons hbefore
    have hrest : c ∉ rest := List.not_mem_of_not_mem_cons hbefore
    have hno : ¬ (front ++ [c]).isPrefixOf (b :: (rest ++ (front ++ c :: after))) = true := by
      rw [ List.isPrefixOf_iff_prefix]
      intro hbegins
      -- the pattern would end before the place where its last character first stands
      have hbegin : b :: (rest ++ front) <+: b :: (rest ++ (front ++ c :: after)) :=
        ⟨c :: after, by simp⟩
      have hshort : front ++ [c] <+: b :: (rest ++ front) := by
        apply List.prefix_of_prefix_length_le hbegins hbegin
        simp only [List.length_append, List.length_cons, List.length_nil]
        omega
      have hmem : c ∈ b :: (rest ++ front) := hshort.subset (by simp)
      simp [hb, hrest, hfront] at hmem
    rw [List.cons_append, cut?, if_neg hno, ih hrest]
    rfl

/-- A pattern that begins nowhere before is found where it was put. -/
theorem cut?_append_first {pattern before after : List Char} (hne : pattern ≠ [])
    (hfirst : ∀ front back, before = front ++ back → back ≠ [] →
      ¬ pattern <+: back ++ (pattern ++ after)) :
    cut? pattern (before ++ (pattern ++ after)) = some (before, after) := by
  induction before with
  | nil =>
    obtain ⟨c, rest, rfl⟩ := List.exists_cons_of_ne_nil hne
    have hbegins : (c :: rest).isPrefixOf (c :: (rest ++ after)) = true := by simp
    rw [List.nil_append, List.cons_append, cut?, if_pos hbegins]
    simp
  | cons b before ih =>
    have hb : ¬ pattern.isPrefixOf (b :: (before ++ (pattern ++ after))) = true := by
      rw [ List.isPrefixOf_iff_prefix]
      exact hfirst [] (b :: before) rfl (List.cons_ne_nil b before)
    have hrest := ih fun front back heq => hfirst (b :: front) back (congrArg (List.cons b) heq)
    rw [List.cons_append, cut?, if_neg hb, hrest]
    rfl

/-- A pattern without some character does not reach beyond it. -/
theorem prefix_of_prefix_append {pattern front back : List Char} {c : Char} (hc : c ∉ pattern)
    (h : pattern <+: front ++ c :: back) : pattern <+: front := by
  rcases List.prefix_or_prefix_of_prefix h (List.prefix_append front (c :: back)) with
    hshort | ⟨more, rfl⟩
  · exact hshort
  · cases more with
    | nil => simp
    | cons d more =>
      have hd : d = c := (List.cons_prefix_cons.mp ((List.prefix_append_right_inj front).mp h)).1
      exact absurd (List.mem_append_right front (hd ▸ List.mem_cons_self)) hc

theorem dropSuffix?_append (text pattern : List Char) :
    dropSuffix? pattern (text ++ pattern) = some text := by
  have hsuffix : pattern.isSuffixOf (text ++ pattern) = true := by simp
  rw [dropSuffix?, if_pos hsuffix, List.length_append, Nat.add_sub_cancel, List.take_left]

theorem dropSuffix?_eq_none {pattern text : List Char} (h : ¬ pattern <:+ text) :
    dropSuffix? pattern text = none := by
  rw [dropSuffix?, if_neg]
  rwa [List.isSuffixOf_iff_suffix]

theorem wordsFrom_cons {c : Char} {rest first : List Char} {others : List (List Char)}
    (hc : isBlank c = false) (h : wordsFrom true rest = first :: others) (open? : Bool) :
    wordsFrom open? (c :: rest) = (c :: first) :: others := by
  simp [wordsFrom, hc, h]

section Word

variable {word : List Char} (hword : ∀ c ∈ word, isBlank c = false)

include hword

theorem wordsFrom_word : wordsFrom true word = [word] := by
  induction word with
  | nil => rfl
  | cons c rest ih =>
    obtain ⟨hc, hrest⟩ := List.forall_mem_cons.mp hword
    exact wordsFrom_cons hc (ih hrest) true

theorem wordsFrom_append_space (rest : List Char) :
    wordsFrom true (word ++ ' ' :: rest) = word :: words rest := by
  induction word with
  | nil => rfl
  | cons c tail ih =>
    obtain ⟨hc, htail⟩ := List.forall_mem_cons.mp hword
    exact wordsFrom_cons hc (ih htail) true

theorem words_word (hne : word ≠ []) : words word = [word] := by
  obtain ⟨c, rest, rfl⟩ := List.exists_cons_of_ne_nil hne
  obtain ⟨hc, hrest⟩ := List.forall_mem_cons.mp hword
  exact wordsFrom_cons hc (wordsFrom_word hrest) false

theorem words_append_space (hne : word ≠ []) (rest : List Char) :
    words (word ++ ' ' :: rest) = word :: words rest := by
  obtain ⟨c, tail, rfl⟩ := List.exists_cons_of_ne_nil hne
  obtain ⟨hc, htail⟩ := List.forall_mem_cons.mp hword
  exact wordsFrom_cons hc (wordsFrom_append_space htail rest) false

end Word

/-- A text that can be one line of a longer one. -/
structure IsLine (line : List Char) : Prop where
  ne_nil : line ≠ []
  feed : '\n' ∉ line
  carriage : line.getLast? ≠ some '\r'

theorem lines_line {line : List Char} (hne : line ≠ []) (hfeed : '\n' ∉ line) :
    lines line = [line] := by
  induction line with
  | nil => exact absurd rfl hne
  | cons c rest ih =>
    have hc : '\n' ≠ c := List.ne_of_not_mem_cons hfeed
    have hrest : '\n' ∉ rest := List.not_mem_of_not_mem_cons hfeed
    cases rest with
    | nil =>
      rw [lines]
      · rfl
      · exact hc.symm
      · exact fun after _ h => List.cons_ne_nil '\n' after h.symm
    | cons d rest =>
      refine lines_cons hc.symm ?_ (ih (List.cons_ne_nil d rest) hrest)
      rintro after ⟨-, hd⟩
      exact hrest ((List.cons.inj hd).1 ▸ List.mem_cons_self)

theorem lines_append_feed {line : List Char} (hfeed : '\n' ∉ line)
    (hcarriage : line.getLast? ≠ some '\r') (rest : List Char) :
    lines (line ++ '\n' :: rest) = line :: lines rest := by
  induction line with
  | nil => rw [List.nil_append, lines]
  | cons c tail ih =>
    have hc : '\n' ≠ c := List.ne_of_not_mem_cons hfeed
    have htail : '\n' ∉ tail := List.not_mem_of_not_mem_cons hfeed
    cases tail with
    | nil =>
      have hne : c ≠ '\r' := by simpa using hcarriage
      have hempty : lines ('\n' :: rest) = [] :: lines rest := by rw [lines]
      exact lines_cons hc.symm (fun after h => hne h.1) hempty
    | cons d tail =>
      rw [List.getLast?_cons_cons] at hcarriage
      refine lines_cons hc.symm ?_ (ih htail hcarriage)
      rintro after ⟨-, hd⟩
      exact htail ((List.cons.inj hd).1 ▸ List.mem_cons_self)

/-- Lines that are joined by line feeds are found again. -/
theorem lines_intercalate {joined : List (List Char)} (h : ∀ line ∈ joined, IsLine line) :
    lines (['\n'].intercalate joined) = joined := by
  induction joined with
  | nil => rfl
  | cons line rest ih =>
    obtain ⟨hline, hrest⟩ := List.forall_mem_cons.mp h
    cases rest with
    | nil =>
      rw [List.intercalate_singleton]
      exact lines_line hline.ne_nil hline.feed
    | cons next rest =>
      rw [List.intercalate_cons_cons, List.append_assoc, List.singleton_append,
        lines_append_feed hline.feed hline.carriage, ih hrest]

end Callable.Text
