import Callable.Proofs.Reference.Place

/-!
A scanner that goes through the bytes of a text. It looks at one byte at a time and cuts tokens out of the
text between two of them; a cut that is not at a boundary of characters, like a step that does not move,
halts it. It finds the lexemes of every text, and the end of the text, without such a halt.
-/
namespace Callable.Reference

open Text (byteLength byteLength_append byteLength_of_isAscii IsAscii Tells bytes exists_byte)

/-- Why a run that checks its steps ends early: with an error that is due, or at a step that cannot be
made. -/
inductive Halt (ε : Type) where
  | failed (e : ε)
  | offBoundary (offset : Nat)
  | noToken (index : Nat)
  | noProgress
  | overOpen
  deriving DecidableEq, Repr

def Halt.map {ε δ : Type} (f : ε → δ) : Halt ε → Halt δ
  | .failed e => .failed (f e)
  | .offBoundary offset => .offBoundary offset
  | .noToken index => .noToken index
  | .noProgress => .noProgress
  | .overOpen => .overOpen

/-- An outcome, seen as that of a run that checks its steps. -/
def checked {ε α : Type} (outcome : Except ε α) : Except (Halt ε) α := outcome.mapError .failed

theorem mapError_checked {ε δ α : Type} (f : ε → δ) (outcome : Except ε α) :
    (checked outcome).mapError (Halt.map f) = checked (outcome.mapError f) := by
  cases outcome <;> rfl

section Cuts

variable {ε : Type}

/-- The part of a text between two boundaries. -/
def cut (text : String) (start stop : Nat) : Except (Halt ε) (List Char) :=
  if ¬ String.Pos.Raw.isValid text ⟨start⟩ then .error (.offBoundary start)
  else if ¬ String.Pos.Raw.isValid text ⟨stop⟩ ∨ stop < start then .error (.offBoundary stop)
  else .ok (String.Pos.Raw.extract text ⟨start⟩ ⟨stop⟩).toList

theorem cut_eq {text : String} {front part back : List Char}
    (htext : text.toList = front ++ (part ++ back)) :
    (cut text (byteLength front) (byteLength (front ++ part)) : Except (Halt ε) (List Char)) =
      .ok part := by
  have hstart : String.Pos.Raw.isValid text ⟨byteLength front⟩ = true := by
    rw [String.Pos.Raw.isValid_eq_true_iff, Text.isValid_iff]
    exact ⟨front, _, htext, rfl⟩
  have hstop : String.Pos.Raw.isValid text ⟨byteLength (front ++ part)⟩ = true := by
    rw [String.Pos.Raw.isValid_eq_true_iff, Text.isValid_iff]
    exact ⟨front ++ part, back, htext.trans (List.append_assoc ..).symm, rfl⟩
  have hle : byteLength front ≤ byteLength (front ++ part) := by
    rw [byteLength_append]
    exact Nat.le_add_right _ _
  rw [cut, hstart, hstop, if_neg (by simp), if_neg (by simpa using hle), Text.extract_toList htext]

theorem cut_rest {text : String} {front rest : List Char} (htext : text.toList = front ++ rest) :
    (cut text (byteLength front) text.utf8ByteSize : Except (Halt ε) (List Char)) = .ok rest := by
  have hsize : byteLength (front ++ rest) = text.utf8ByteSize := by
    rw [← htext, Text.byteLength_toList]
  rw [← hsize]
  exact cut_eq (htext.trans (by rw [List.append_nil]))

end Cuts

/-- The first byte from the offset on that begins no character of the class. -/
def skipWhile (p : Char → Bool) (text : String) (offset : Nat) : Nat :=
  match h : (bytes text)[offset]? with
  | some byte => if p (Char.ofUInt8 byte) then skipWhile p text (offset + 1) else offset
  | none => offset
termination_by (bytes text).length - offset
decreasing_by
  obtain ⟨hlt, -⟩ := List.getElem?_eq_some_iff.mp h
  omega

/-- What stands at an offset, told by its byte: a blank, which is no token, or a token, with the byte
after it. -/
def scanToken (text : String) (start : Nat) (byte : Char) :
    Except (Halt Misspelt) (Option Token × Nat) :=
  if isSpace byte then .ok (none, start + 1)
  else
    match punctuation? byte with
    | some mark => .ok (some mark, start + 1)
    | none =>
      if byte = '\'' ∨ byte = '"' then do
        match quotedText? byte 0 (← cut text (start + 1) text.utf8ByteSize) with
        | none => .error (.failed (start, .openString))
        | some (inner, length, _) =>
          .ok (some (.quoted (String.ofList inner)), start + 1 + length)
      else if byte = '-' ∨ byte.isDigit then do
        let stop := skipWhile Char.isDigit text (start + 1)
        let numeral ← cut text start stop
        if numeral = ['-'] then .error (.failed (start, .loneMinus))
        else .ok (some (.number (String.ofList numeral)), stop)
      else if startsName byte then do
        let stop := skipWhile continuesName text start
        let name ← cut text start stop
        if hasBadDots name then .error (.failed (start, .badDots (String.ofList name)))
        else .ok (some (.name (String.ofList name)), stop)
      else do
        let rest ← cut text start text.utf8ByteSize
        .error (.failed (start, .strayCharacter (rest.headD '?')))

/-- The lexemes from an offset on, and the offset at which there is no byte any more. -/
def scanFrom (text : String) (offset : Nat) : Except (Halt Misspelt) (List Lexeme × Nat) :=
  match (bytes text)[offset]? with
  | none => .ok ([], offset)
  | some byte => do
    let (token, stop) ← scanToken text offset (Char.ofUInt8 byte)
    if text.utf8ByteSize - stop < text.utf8ByteSize - offset then
      let (found, last) ← scanFrom text stop
      .ok (token.toList.map (⟨·, offset⟩) ++ found, last)
    else .error .noProgress
termination_by text.utf8ByteSize - offset

/-- A place of a parser: a token or the end of the text, with its byte. -/
structure Slot where
  token : Option Token
  position : Nat
  deriving DecidableEq, Repr

/-- The lexemes of a text with its end after them. -/
def slotsOf (stop : Nat) (found : List Lexeme) : List Slot :=
  found.map (fun lexeme => ⟨some lexeme.token, lexeme.start⟩) ++ [⟨none, stop⟩]

def scan (text : String) : Except (Halt Misspelt) (List Slot) := do
  let (found, stop) ← scanFrom text 0
  if found = [] then .error (.failed (0, .empty)) else .ok (slotsOf stop found)

section Runs

variable {text : String} {front part rest back : List Char}

theorem getElem?_bytes_length : (bytes text)[byteLength text.toList]? = none := by
  rw [List.getElem?_eq_none_iff, Text.length_bytes, Text.byteLength_toList]

theorem skipWhile_of_some {p : Char → Bool} {offset : Nat} {byte : UInt8}
    (h : (bytes text)[offset]? = some byte) : skipWhile p text offset =
      if p (Char.ofUInt8 byte) then skipWhile p text (offset + 1) else offset := by
  rw [skipWhile]
  split
  · rename_i hbyte
    cases hbyte.symm.trans h
    rfl
  · rename_i hnone
    cases hnone.symm.trans h

theorem skipWhile_end (p : Char → Bool) :
    skipWhile p text (byteLength text.toList) = byteLength text.toList := by
  rw [skipWhile]
  split
  · rename_i hbyte
    cases hbyte.symm.trans getElem?_bytes_length
  · rfl

/-- Bytes of a class of ASCII characters are skipped as characters are. -/
theorem skipWhile_eq {p : Char → Bool} (hp : IsAscii p) (htext : text.toList = front ++ (part ++ back))
    (hall : ∀ c ∈ part, p c = true) (hstop : Stops p back) :
    skipWhile p text (byteLength front) = byteLength (front ++ part) := by
  induction part generalizing front with
  | nil =>
    rw [List.append_nil]
    cases back with
    | nil =>
      have hfront : text.toList = front := by rw [htext, List.nil_append, List.append_nil]
      rw [← hfront, skipWhile_end]
    | cons c back =>
      obtain ⟨byte, hbyte, htells⟩ := exists_byte htext
      rw [skipWhile_of_some hbyte, htells.class_eq hp, hstop c rfl]
      rfl
  | cons c part ih =>
    obtain ⟨hc, hpart⟩ := List.forall_mem_cons.mp hall
    obtain ⟨byte, hbyte, htells⟩ := exists_byte htext
    have hnext : byteLength front + 1 = byteLength (front ++ [c]) := by
      rw [byteLength_append, byteLength, byteLength, hp c hc]
    have hsplit : text.toList = front ++ [c] ++ (part ++ back) := by
      rw [htext, List.append_assoc, List.singleton_append, List.cons_append]
    rw [skipWhile_of_some hbyte, htells.class_eq hp, hc, if_pos rfl, hnext, ih hsplit hpart,
      List.append_assoc, List.singleton_append]

/-- The bytes of a string may be counted from anywhere. -/
theorem quotedText?_add {quote : Char} (k pos : Nat) (input : List Char) :
    quotedText? quote (k + pos) input =
      (quotedText? quote pos input).map fun (text, stop, rest) => (text, k + stop, rest) := by
  fun_induction quotedText? quote pos input with
  | case1 => rfl
  | case2 => rfl
  | case3 pos c tail ih =>
    have hshift : k + pos + 1 + c.utf8Size = k + (pos + 1 + c.utf8Size) := by omega
    rw [quotedText?, hshift, ih, Option.map_map, Option.map_map]
    rfl
  | case4 pos tail hlone hescape =>
    rw [quotedText?, if_pos rfl, Option.map_some, Nat.add_assoc]
    · exact hlone
    · exact hescape
  | case5 pos c tail hlone hescape hc ih =>
    rw [quotedText?, if_neg hc, Nat.add_assoc, ih, Option.map_map, Option.map_map]
    · rfl
    · exact hlone
    · exact hescape

/-- What a scan of the rest of a text comes to, if the lexemes of that rest are these. -/
def scanned (text : String) (outcome : Except Misspelt (List Lexeme)) :
    Except (Halt Misspelt) (List Lexeme × Nat) :=
  checked (outcome.map (·, text.utf8ByteSize))

theorem scanFrom_of_token {token : Option Token} {byte : UInt8} (htext : text.toList = front ++ (part ++ rest))
    (hpart : part ≠ []) (hbyte : (bytes text)[byteLength front]? = some byte)
    (htoken : scanToken text (byteLength front) (Char.ofUInt8 byte) =
      .ok (token, byteLength (front ++ part))) :
    scanFrom text (byteLength front) = (scanFrom text (byteLength (front ++ part))).map
      fun (found, last) => (token.toList.map (⟨·, byteLength front⟩) ++ found, last) := by
  have hlt : byteLength front < byteLength (front ++ part) := by
    obtain ⟨c, more, rfl⟩ := List.exists_cons_of_ne_nil hpart
    have hpos := c.utf8Size_pos
    rw [byteLength_append, byteLength]
    omega
  have hle : byteLength (front ++ part) ≤ text.utf8ByteSize := by
    rw [← Text.byteLength_toList, htext, ← List.append_assoc, byteLength_append (front ++ part)]
    exact Nat.le_add_right _ _
  rw [scanFrom, hbyte]
  simp only [htoken, bind, Except.bind, if_pos (show text.utf8ByteSize - byteLength (front ++ part) <
    text.utf8ByteSize - byteLength front by omega)]
  cases scanFrom text (byteLength (front ++ part)) <;> rfl

theorem scanFrom_of_halt {e : Halt Misspelt} {byte : UInt8}
    (hbyte : (bytes text)[byteLength front]? = some byte)
    (htoken : scanToken text (byteLength front) (Char.ofUInt8 byte) = .error e) :
    scanFrom text (byteLength front) = .error e := by
  rw [scanFrom, hbyte]
  simp only [htoken]
  rfl

theorem byteLength_concat {c : Char} (hc : c.utf8Size = 1) :
    byteLength front + 1 = byteLength (front ++ [c]) := by
  rw [byteLength_append, byteLength, byteLength, hc]

theorem toList_concat {c : Char} (htext : text.toList = front ++ (c :: part ++ rest)) :
    text.toList = front ++ [c] ++ (part ++ rest) := by
  rw [htext, List.append_assoc, List.singleton_append, List.cons_append]

theorem scanToken_quoted {c : Char} (hquote : c = '\'' ∨ c = '"')
    (htext : text.toList = front ++ c :: rest) : scanToken text (byteLength front) c =
      match quotedText? c (byteLength front + 1) rest with
      | none => .error (.failed (byteLength front, .openString))
      | some (inner, stop, _) => .ok (some (.quoted (String.ofList inner)), stop) := by
  have hspace : ¬ isSpace c = true := by rcases hquote with rfl | rfl <;> decide
  have hmark : punctuation? c = none := by rcases hquote with rfl | rfl <;> rfl
  have hnext : byteLength front + 1 = byteLength (front ++ [c]) :=
    byteLength_concat (isAscii_quote c (decide_eq_true hquote))
  have hrest : (cut text (byteLength front + 1) text.utf8ByteSize : Except (Halt Misspelt) _) =
      .ok rest := by
    rw [hnext]
    exact cut_rest (by rw [htext, List.append_assoc, List.singleton_append])
  rw [scanToken, if_neg hspace, hmark, ← Nat.add_zero (byteLength front + 1), quotedText?_add]
  simp only [if_pos hquote, Nat.add_zero, hrest, bind, Except.bind]
  cases quotedText? c 0 rest <;> rfl

theorem scanToken_number {c : Char} (hc : c = '-' ∨ c.isDigit = true)
    (htext : text.toList = front ++ (c :: part ++ rest)) (hpart : ∀ d ∈ part, d.isDigit = true)
    (hstop : Stops Char.isDigit rest) : scanToken text (byteLength front) c =
      if c :: part = ['-'] then .error (.failed (byteLength front, .loneMinus))
      else .ok (some (.number (String.ofList (c :: part))), byteLength (front ++ c :: part)) := by
  obtain ⟨hspace, hmark, hquote⟩ := class_of_not_special (numeral_not_special hc)
  have hskip := skipWhile_eq isAscii_isDigit (toList_concat htext) hpart hstop
  rw [List.append_assoc, List.singleton_append,
    ← byteLength_concat (isAscii_numeral c (decide_eq_true hc))] at hskip
  rw [scanToken, hspace, hmark]
  simp only [Bool.false_eq_true, if_false, if_neg hquote, if_pos hc, hskip, cut_eq htext, bind,
    Except.bind]

theorem scanToken_name {c : Char} (hstart : startsName c = true)
    (htext : text.toList = front ++ (c :: part ++ rest)) (hpart : ∀ d ∈ part, continuesName d = true)
    (hstop : Stops continuesName rest) : scanToken text (byteLength front) c =
      if hasBadDots (c :: part) then
        .error (.failed (byteLength front, .badDots (String.ofList (c :: part))))
      else .ok (some (.name (String.ofList (c :: part))), byteLength (front ++ c :: part)) := by
  obtain ⟨hspace, hmark, hquote⟩ :=
    class_of_not_special (not_special_of_class (by decide) hstart)
  have hnumeral : ¬ (c = '-' ∨ c.isDigit = true) := by
    rintro (rfl | hdigit)
    · cases hstart
    · exact Bool.false_ne_true ((isDigit_eq_false_of_startsName hstart).symm.trans hdigit)
  have hall : ∀ d ∈ c :: part, continuesName d = true :=
    List.forall_mem_cons.mpr ⟨continuesName_of_startsName hstart, hpart⟩
  have hskip := skipWhile_eq isAscii_continuesName htext hall hstop
  rw [scanToken, hspace, hmark]
  simp only [Bool.false_eq_true, if_false, if_neg hquote, if_neg hnumeral, if_pos hstart, hskip,
    cut_eq htext, bind, Except.bind]

/-- A byte that begins no token and no blank begins a stray character. -/
theorem scanToken_stray {c : Char} {byte : UInt8} (htext : text.toList = front ++ c :: rest)
    (htells : Tells byte c) (hspace : ¬ isSpace c = true) (hmark : punctuation? c = none)
    (hquote : ¬ (c = '\'' ∨ c = '"')) (hnumeral : ¬ (c = '-' ∨ c.isDigit = true))
    (hstart : ¬ startsName c = true) :
    scanToken text (byteLength front) (Char.ofUInt8 byte) =
      .error (.failed (byteLength front, .strayCharacter c)) := by
  have hclass {p : Char → Bool} (hp : IsAscii p) (h : ¬ p c = true) :
      ¬ p (Char.ofUInt8 byte) = true := by rwa [htells.class_eq hp]
  have hmark' := hclass isAscii_punctuation (by rw [hmark]; decide)
  have hquote' := hclass isAscii_quote (mt of_decide_eq_true hquote)
  have hnumeral' := hclass isAscii_numeral (mt of_decide_eq_true hnumeral)
  rw [decide_eq_true_eq] at hquote' hnumeral'
  rw [scanToken, if_neg (hclass isAscii_isSpace hspace), Option.not_isSome_iff_eq_none.mp hmark']
  simp only [if_neg hquote', if_neg hnumeral', if_neg (hclass isAscii_startsName hstart),
    cut_rest htext, bind, Except.bind, List.headD_cons]

/-- A token in front of what is scanned after it. -/
theorem scanFrom_cons {token : Token} {c : Char} {next : Nat}
    {outcome : Except Misspelt (List Lexeme)} (htext : text.toList = front ++ (c :: part ++ rest))
    (hc : c.utf8Size = 1) (hnext : next = byteLength (front ++ c :: part))
    (htoken : scanToken text (byteLength front) c = .ok (some token, next))
    (hrest : text.toList = front ++ c :: part ++ rest → next = byteLength (front ++ c :: part) →
      scanFrom text next = scanned text outcome) :
    scanFrom text (byteLength front) =
      scanned text ((⟨token, byteLength front⟩ :: ·) <$> outcome) := by
  subst hnext
  obtain ⟨byte, hbyte, htells⟩ := exists_byte htext
  rw [scanFrom_of_token htext (List.cons_ne_nil c part) hbyte (by rw [htells.eq hc, htoken]),
    hrest (by rw [htext, List.append_assoc]) rfl]
  cases outcome <;> rfl

theorem scanFrom_skip {c : Char} {outcome : Except Misspelt (List Lexeme)}
    (htext : text.toList = front ++ ([c] ++ rest)) (hspace : isSpace c = true)
    (hrest : text.toList = front ++ [c] ++ rest → byteLength front + 1 = byteLength (front ++ [c]) →
      scanFrom text (byteLength front + 1) = scanned text outcome) :
    scanFrom text (byteLength front) = scanned text outcome := by
  have hc := isAscii_isSpace c hspace
  have hnext : byteLength front + 1 = byteLength (front ++ [c]) := byteLength_concat hc
  obtain ⟨byte, hbyte, htells⟩ := exists_byte htext
  have htoken : scanToken text (byteLength front) (Char.ofUInt8 byte) =
      .ok (none, byteLength (front ++ [c])) := by
    rw [htells.eq hc, scanToken, if_pos hspace, hnext]
  rw [scanFrom_of_token htext (List.cons_ne_nil c []) hbyte htoken, ← hnext,
    hrest (by rw [htext, List.append_assoc]) hnext]
  cases outcome <;> rfl

theorem scanFrom_failed {c : Char} {e : Misspelt} (htext : text.toList = front ++ c :: rest)
    (hc : c.utf8Size = 1) (htoken : scanToken text (byteLength front) c = .error (.failed e)) :
    scanFrom text (byteLength front) = scanned text (.error e) := by
  obtain ⟨byte, hbyte, htells⟩ := exists_byte htext
  exact scanFrom_of_halt hbyte (by rw [htells.eq hc, htoken])

/-- The bytes of a rest of a text have the lexemes of its characters. -/
theorem scanFrom_eq {pos : Nat} (htext : text.toList = front ++ rest) (hpos : pos = byteLength front) :
    scanFrom text pos = scanned text (lexemesFrom pos rest) := by
  fun_induction lexemesFrom pos rest generalizing front with
  | case1 =>
    rw [List.append_nil] at htext
    subst htext hpos
    rw [scanFrom, getElem?_bytes_length]
    exact congrArg (fun stop => Except.ok ([], stop)) (Text.byteLength_toList text)
  | case2 pos c rest hspace ih =>
    subst hpos
    exact scanFrom_skip htext hspace ih
  | case3 pos c rest hspace mark hmark ih =>
    subst hpos
    have hsome : (punctuation? c).isSome = true := by rw [hmark]; rfl
    have hc : c.utf8Size = 1 := isAscii_punctuation c hsome
    have htoken : scanToken text (byteLength front) c = .ok (some mark, byteLength front + 1) := by
      rw [scanToken, if_neg hspace, hmark]
    exact scanFrom_cons htext hc (byteLength_concat hc) htoken ih
  | case4 pos c rest hspace hmark hquote hnone =>
    subst hpos
    refine scanFrom_failed htext (isAscii_quote c (decide_eq_true hquote)) ?_
    rw [scanToken_quoted hquote htext, hnone]
  | case5 pos c rest hspace hmark hquote inner stop after hinner _ ih =>
    subst hpos
    have hc := isAscii_quote c (decide_eq_true hquote)
    have htoken := scanToken_quoted hquote htext
    rw [hinner] at htoken
    obtain ⟨body, rfl, -⟩ := quotedText?_eq_some hinner
    have hstop := byteLength_of_quotedText? hinner
    have hnext : stop = byteLength (front ++ c :: (body ++ [c])) := by
      simp only [byteLength, byteLength_append, hc] at hstop ⊢
      omega
    have hsplit : text.toList = front ++ (c :: (body ++ [c]) ++ after) := by
      rw [htext, List.cons_append, List.append_assoc, List.singleton_append]
    exact scanFrom_cons hsplit hc hnext htoken ih
  | case6 pos c rest hspace hmark hquote hc digits =>
    subst hpos
    rename_i hlone
    have hdigits : ∀ d ∈ digits, d.isDigit = true := forall_takeWhile Char.isDigit rest
    have hsplit := htext.trans (congrArg (front ++ ·) (cons_takeWhile_dropWhile Char.isDigit c rest))
    refine scanFrom_failed htext (isAscii_numeral c (decide_eq_true hc)) ?_
    rw [scanToken_number hc hsplit hdigits (stops_dropWhile Char.isDigit rest),
      if_pos (List.cons_eq_cons.mpr hlone)]
  | case7 pos c rest hspace hmark hquote hc digits hlone =>
    subst hpos
    rename_i ih
    have hdigits : ∀ d ∈ digits, d.isDigit = true := forall_takeWhile Char.isDigit rest
    have hsplit := htext.trans (congrArg (front ++ ·) (cons_takeWhile_dropWhile Char.isDigit c rest))
    have hnext : byteLength front + 1 + digits.length = byteLength (front ++ c :: digits) := by
      rw [byteLength_append, byteLength_numeral hc hdigits, Nat.add_assoc]
    have htoken := scanToken_number hc hsplit hdigits (stops_dropWhile Char.isDigit rest)
    rw [if_neg (mt List.cons_eq_cons.mp hlone), ← hnext] at htoken
    exact scanFrom_cons hsplit (isAscii_numeral c (decide_eq_true hc)) hnext htoken ih
  | case8 pos c rest hspace hmark hquote hc hstart name =>
    subst hpos
    rename_i hdots
    have hsplit := htext.trans (congrArg (front ++ ·) (cons_takeWhile_dropWhile continuesName c rest))
    refine scanFrom_failed htext (isAscii_startsName c hstart) ?_
    rw [scanToken_name hstart hsplit (forall_takeWhile continuesName rest)
      (stops_dropWhile continuesName rest), if_pos hdots]
  | case9 pos c rest hspace hmark hquote hc hstart name hdots =>
    subst hpos
    rename_i ih
    have hcontinues := forall_takeWhile continuesName rest
    have hsplit := htext.trans (congrArg (front ++ ·) (cons_takeWhile_dropWhile continuesName c rest))
    have hall : ∀ d ∈ name, continuesName d = true :=
      List.forall_mem_cons.mpr ⟨continuesName_of_startsName hstart, hcontinues⟩
    have hnext : byteLength front + name.length = byteLength (front ++ name) := by
      rw [byteLength_append, byteLength_of_isAscii isAscii_continuesName hall]
    have htoken := scanToken_name hstart hsplit hcontinues (stops_dropWhile continuesName rest)
    rw [if_neg hdots, ← hnext] at htoken
    exact scanFrom_cons hsplit (isAscii_startsName c hstart) hnext htoken ih
  | case10 pos c rest hspace hmark hquote hc hstart =>
    subst hpos
    obtain ⟨byte, hbyte, htells⟩ := exists_byte htext
    exact scanFrom_of_halt hbyte (scanToken_stray htext htells hspace hmark hquote hc hstart)

/-- Every text is scanned without a halt: what the scanner finds are its lexemes and its end. -/
theorem scan_eq (text : String) :
    scan text = checked ((lexemes text).map (slotsOf text.utf8ByteSize)) := by
  have hscan : scanFrom text 0 = scanned text (lexemesFrom 0 text.toList) :=
    scanFrom_eq (List.nil_append _).symm rfl
  rw [scan, hscan, lexemes]
  cases lexemesFrom 0 text.toList with
  | error e => rfl
  | ok found => cases found <;> rfl

end Runs

end Callable.Reference
