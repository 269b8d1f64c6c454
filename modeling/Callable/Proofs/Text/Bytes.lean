import Mathlib.Data.String.Basic
import Callable.Text.Split

/-!
The bytes of a text. A byte is a boundary if a character starts there or the text ends; the boundaries
are the lengths of the parts that the text begins with. Whether a character belongs to a class of ASCII
characters is told by its first byte.
-/
namespace Callable.Text

theorem byteLength_append (text more : List Char) :
    byteLength (text ++ more) = byteLength text + byteLength more := by
  induction text with
  | nil => rw [List.nil_append, byteLength, Nat.zero_add]
  | cons c rest ih => rw [List.cons_append, byteLength, byteLength, ih, Nat.add_assoc]

theorem byteLength_eq_utf8Len (text : List Char) : byteLength text = String.utf8Len text := by
  induction text with
  | nil => rfl
  | cons c rest ih => rw [byteLength, String.utf8Len_cons, ih, Nat.add_comm]

theorem byteLength_toList (text : String) : byteLength text.toList = text.utf8ByteSize := by
  rw [byteLength_eq_utf8Len, String.utf8Len_toList]

/-- The boundaries of a text are the lengths of the parts it begins with. -/
theorem isValid_iff (text : String) (pos : Nat) :
    (⟨pos⟩ : String.Pos.Raw).IsValid text ↔
      ∃ front rest, text.toList = front ++ rest ∧ byteLength front = pos := by
  rw [String.Pos.Raw.isValid_iff_exists_append]
  constructor
  · rintro ⟨front, rest, rfl, hpos⟩
    refine ⟨front.toList, rest.toList, String.toList_append, ?_⟩
    rw [byteLength_toList]
    exact (congrArg String.Pos.Raw.byteIdx hpos).symm
  · rintro ⟨front, rest, htext, rfl⟩
    refine ⟨String.ofList front, String.ofList rest, ?_, ?_⟩
    · rw [← String.ofList_append, ← htext, String.ofList_toList]
    · rw [String.rawEndPos_ofList, byteLength_eq_utf8Len]

theorem extract_toList {text : String} {front part back : List Char}
    (htext : text.toList = front ++ (part ++ back)) :
    (String.Pos.Raw.extract text ⟨byteLength front⟩ ⟨byteLength (front ++ part)⟩).toList = part := by
  have hextract := String.extract_of_valid front part back
  rw [List.append_assoc, ← htext, String.ofList_toList] at hextract
  rw [byteLength_append, byteLength_eq_utf8Len, byteLength_eq_utf8Len, hextract, String.toList_ofList]

def bytes (text : String) : List UInt8 := text.toByteArray.data.toList

theorem bytes_eq_flatMap (text : String) : bytes text = text.toList.flatMap String.utf8EncodeChar := by
  have hbytes : text.toByteArray = text.toList.utf8Encode := by
    rw [← String.toByteArray_ofList, String.ofList_toList]
  rw [bytes, hbytes, List.utf8Encode, List.toList_data_toByteArray]

theorem length_flatMap_encode (chars : List Char) :
    (chars.flatMap String.utf8EncodeChar).length = byteLength chars := by
  induction chars with
  | nil => rfl
  | cons c rest ih =>
    rw [List.flatMap_cons, List.length_append, String.length_utf8EncodeChar, ih, byteLength]

theorem length_bytes (text : String) : (bytes text).length = text.utf8ByteSize := by
  rw [bytes_eq_flatMap, length_flatMap_encode, byteLength_toList]

theorem drop_bytes {text : String} {front rest : List Char} (htext : text.toList = front ++ rest) :
    (bytes text).drop (byteLength front) = rest.flatMap String.utf8EncodeChar := by
  rw [bytes_eq_flatMap, htext, List.flatMap_append, ← length_flatMap_encode, List.drop_left]

/-- The class has ASCII characters only. -/
def IsAscii (p : Char → Bool) : Prop := ∀ c, p c = true → c.utf8Size = 1

theorem byteLength_of_isAscii {p : Char → Bool} (hp : IsAscii p) {part : List Char}
    (hall : ∀ c ∈ part, p c = true) : byteLength part = part.length := by
  induction part with
  | nil => rfl
  | cons c rest ih =>
    obtain ⟨hc, hrest⟩ := List.forall_mem_cons.mp hall
    rw [byteLength, hp c hc, ih hrest, List.length_cons, Nat.add_comm]

/-- What a byte says of the character that begins with it: its own code, or that it is not ASCII. -/
def Tells (byte : UInt8) (c : Char) : Prop :=
  Char.ofUInt8 byte = c ∨ (Char.ofUInt8 byte).utf8Size ≠ 1 ∧ c.utf8Size ≠ 1

theorem val_ofUInt8 (byte : UInt8) : (Char.ofUInt8 byte).val = byte.toUInt32 := rfl

theorem utf8Size_ofUInt8_ne_one {n : Nat} (hn : 127 < n) (hbyte : n < 256) :
    (Char.ofUInt8 (UInt8.ofNat n)).utf8Size ≠ 1 := by
  rw [Ne, Char.utf8Size_eq_one_iff, UInt32.le_iff_toNat_le]
  rw [val_ofUInt8, UInt8.toNat_toUInt32, UInt8.toNat_ofNat_of_lt' hbyte]
  exact Nat.not_le.mpr hn

theorem exists_utf8EncodeChar (c : Char) :
    ∃ byte tail, String.utf8EncodeChar c = byte :: tail ∧ Tells byte c := by
  have hone : c.utf8Size = 1 ↔ c.val.toNat ≤ 127 := by
    rw [Char.utf8Size_eq_one_iff, UInt32.le_iff_toNat_le]
    rfl
  unfold String.utf8EncodeChar
  dsimp only
  split
  · rename_i hascii
    have hbyte : c.val.toNat < 256 := Nat.lt_of_le_of_lt hascii (by decide)
    refine ⟨_, [], rfl, Or.inl (Char.ext ?_)⟩
    rw [val_ofUInt8, ← UInt32.toNat_inj, UInt8.toNat_toUInt32, UInt8.toNat_ofNat_of_lt' hbyte]
  · rename_i hwide
    have hc : c.utf8Size ≠ 1 := mt hone.mp hwide
    split
    · exact ⟨_, _, rfl, Or.inr ⟨utf8Size_ofUInt8_ne_one (by omega) (by omega), hc⟩⟩
    · split
      · exact ⟨_, _, rfl, Or.inr ⟨utf8Size_ofUInt8_ne_one (by omega) (by omega), hc⟩⟩
      · exact ⟨_, _, rfl, Or.inr ⟨utf8Size_ofUInt8_ne_one (by omega) (by omega), hc⟩⟩

theorem Tells.eq {byte : UInt8} {c : Char} (h : Tells byte c) (hc : c.utf8Size = 1) :
    Char.ofUInt8 byte = c := h.resolve_right fun hwide => hwide.2 hc

theorem IsAscii.mono {p q : Char → Bool} (hq : IsAscii q) (h : ∀ c, p c = true → q c = true) :
    IsAscii p := fun c hc => hq c (h c hc)

theorem Tells.class_eq {byte : UInt8} {c : Char} (h : Tells byte c) {p : Char → Bool} (hp : IsAscii p) :
    p (Char.ofUInt8 byte) = p c := by
  rcases h with h | ⟨hbyte, hc⟩
  · rw [h]
  · rw [Bool.eq_false_iff.mpr (mt (hp _) hbyte), Bool.eq_false_iff.mpr (mt (hp c) hc)]

/-- The byte at the boundary before a character. -/
theorem exists_byte {text : String} {front rest : List Char} {c : Char}
    (htext : text.toList = front ++ c :: rest) :
    ∃ byte, (bytes text)[byteLength front]? = some byte ∧ Tells byte c := by
  obtain ⟨byte, tail, hencode, htells⟩ := exists_utf8EncodeChar c
  refine ⟨byte, ?_, htells⟩
  rw [← List.head?_drop, drop_bytes htext, List.flatMap_cons, hencode]
  rfl

end Callable.Text
