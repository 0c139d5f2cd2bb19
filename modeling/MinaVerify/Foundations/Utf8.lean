import Mathlib.Data.List.Basic

/-! # Lossy decoding of UTF-8

Bytes are read as text in which every maximal piece of an ill-formed sequence is one replacement
character, as `String::from_utf8_lossy` does. Well-formed bytes are read as the text they encode. -/
namespace MinaVerify.Utf8
set_option autoImplicit false

/-- The bytes of a text. -/
def encode (text : String) : List UInt8 := text.toList.flatMap String.utf8EncodeChar

def isContinuation (b : UInt8) : Bool := b &&& 192 == 128

/-- The second bytes a sequence of three or four bytes may have: no overlong form, no surrogate, nothing
above the last code point. -/
def secondFits (lead second : UInt8) : Bool :=
  if lead = 0xe0 then 0xa0 ≤ second ∧ second ≤ 0xbf
  else if lead = 0xed then 0x80 ≤ second ∧ second ≤ 0x9f
  else if 0xe1 ≤ lead ∧ lead ≤ 0xef then 0x80 ≤ second ∧ second ≤ 0xbf
  else if lead = 0xf0 then 0x90 ≤ second ∧ second ≤ 0xbf
  else if lead = 0xf4 then 0x80 ≤ second ∧ second ≤ 0x8f
  else if 0xf1 ≤ lead ∧ lead ≤ 0xf3 then 0x80 ≤ second ∧ second ≤ 0xbf
  else false

/-- How many bytes of an ill-formed sequence one replacement character stands for. -/
def invalidLength : List UInt8 → ℕ
  | lead :: second :: rest =>
    if secondFits lead second then
      match rest with
      | third :: _ => if 0xf0 ≤ lead ∧ isContinuation third then 3 else 2
      | [] => 2
    else 1
  | _ => 1

theorem invalidLength_pos (bytes : List UInt8) : 0 < invalidLength bytes := by
  unfold invalidLength
  split
  · split_ifs
    · split
      · split_ifs <;> omega
      · omega
    · omega
  · omega

def lossyChars : List UInt8 → List Char
  | [] => []
  | b :: rest =>
    match (b :: rest).toByteArray.utf8DecodeChar? 0 with
    | some c => c :: lossyChars ((b :: rest).drop c.utf8Size)
    | none => '\ufffd' :: lossyChars ((b :: rest).drop (invalidLength (b :: rest)))
termination_by bytes => bytes.length
decreasing_by
  · have := c.utf8Size_pos
    rw [List.length_drop, List.length_cons]
    omega
  · have := invalidLength_pos (b :: rest)
    rw [List.length_drop, List.length_cons]
    omega

def fromUtf8Lossy (bytes : List UInt8) : String := String.ofList (lossyChars bytes)

/-! ## Well-formed bytes -/

theorem lossyChars_cons (c : Char) (rest : List UInt8) :
    lossyChars (String.utf8EncodeChar c ++ rest) = c :: lossyChars rest := by
  have hne : String.utf8EncodeChar c ++ rest ≠ [] := by simp [String.utf8EncodeChar_ne_nil]
  have hfirst : (String.utf8EncodeChar c ++ rest).toByteArray.utf8DecodeChar? 0 = some c := by
    rw [List.toByteArray_append]
    exact ByteArray.utf8DecodeChar?_utf8EncodeChar_append
  obtain ⟨b, tail, hcons⟩ := List.exists_cons_of_ne_nil hne
  rw [hcons] at hfirst ⊢
  rw [lossyChars, hfirst]
  simp only
  rw [← hcons, ← String.length_utf8EncodeChar c, List.drop_left]

theorem lossyChars_encode (text : List Char) :
    lossyChars (text.flatMap String.utf8EncodeChar) = text := by
  induction text with
  | nil => rw [List.flatMap_nil, lossyChars]
  | cons c text ih => rw [List.flatMap_cons, lossyChars_cons, ih]

theorem fromUtf8Lossy_encode (text : String) : fromUtf8Lossy (encode text) = text := by
  rw [fromUtf8Lossy, encode, lossyChars_encode, String.ofList_toList]

theorem encode_spaces (text : String) (n : ℕ) :
    encode (text ++ String.ofList (List.replicate n ' ')) = encode text ++ List.replicate n 32 := by
  have hspace : String.utf8EncodeChar ' ' = [32] := by decide
  have hspaces : (List.replicate n ' ').flatMap String.utf8EncodeChar = List.replicate n 32 := by
    rw [List.flatMap_replicate, hspace, List.flatten_replicate_singleton]
  rw [encode, String.toList_append, String.toList_ofList, List.flatMap_append, hspaces, encode]

end MinaVerify.Utf8
