import OpenApi.Parameter.Escape
import OpenApi.Proofs.Text

/-!
# Percent-encoding is undone by decoding

* `Percent.decode_encode`: what is encoded by a class without the percent sign decodes to itself;
* `Parameter.mem_escapeUnreserved`: an escaped text has unreserved characters and percent signs
  only, so that no delimiter occurs in it.
-/

namespace OpenApi

/-! ## Hexadecimal digits -/

namespace Text

theorem hexValue?_upperHexDigit {n : Nat} (h : n < 16) : hexValue? (upperHexDigit n) = some n := by
  have hall : ∀ n : Fin 16, hexValue? (upperHexDigit n) = some n.val := by decide
  exact hall ⟨n, h⟩

theorem isAlphanum_upperHexDigit {n : Nat} (h : n < 16) : (upperHexDigit n).isAlphanum = true := by
  have hall : ∀ n : Fin 16, (upperHexDigit n).isAlphanum = true := by decide
  exact hall ⟨n, h⟩

end Text

/-! ## Decoding what was encoded -/

namespace Percent

open Text

variable {keep : Char → Bool}

/-- A character that is no percent sign stands for its bytes. -/
theorem decodeBytes_cons_of_ne {c : Char} (h : c ≠ '%') (cs : List Char) :
    decodeBytes (c :: cs) = String.utf8EncodeChar c ++ decodeBytes cs := by
  cases cs with
  | nil => simp [decodeBytes]
  | cons d cs =>
    cases cs with
    | nil => simp [decodeBytes]
    | cons e cs => rw [decodeBytes, if_neg h]

theorem decodeBytes_encodeByte (b : UInt8) (cs : List Char) :
    decodeBytes (encodeByte b ++ cs) = b :: decodeBytes cs := by
  have hb : b.toNat < 256 := b.toNat_lt
  have high := hexValue?_upperHexDigit (n := b.toNat / 16) (by omega)
  have low := hexValue?_upperHexDigit (n := b.toNat % 16) (by omega)
  show decodeBytes ('%' :: upperHexDigit (b.toNat / 16) :: upperHexDigit (b.toNat % 16) :: cs) = _
  rw [decodeBytes, if_pos rfl, high, low]
  have hsum : 16 * (b.toNat / 16) + b.toNat % 16 = b.toNat := by omega
  simp only [hsum, UInt8.ofNat_toNat]

theorem decodeBytes_flatMap_encodeByte (bytes : List UInt8) (cs : List Char) :
    decodeBytes (bytes.flatMap encodeByte ++ cs) = bytes ++ decodeBytes cs := by
  induction bytes with
  | nil => rfl
  | cons b bytes ih =>
    rw [List.flatMap_cons, List.append_assoc, decodeBytes_encodeByte, ih, List.cons_append]

/-- The bytes of an encoded text are the bytes of the text. -/
theorem decodeBytes_encodeChars (h : keep '%' = false) (cs : List Char) :
    decodeBytes (encodeChars keep cs) = cs.flatMap String.utf8EncodeChar := by
  induction cs with
  | nil => rfl
  | cons c cs ih =>
    rw [encodeChars] at ih ⊢
    rw [List.flatMap_cons, List.flatMap_cons]
    split
    next hc =>
      have hne : c ≠ '%' := by
        rintro rfl
        rw [h] at hc
        cases hc
      rw [List.singleton_append, decodeBytes_cons_of_ne hne, ih]
    next => rw [encodeChar, decodeBytes_flatMap_encodeByte, ih]

theorem textOfBytes?_utf8 (s : String) :
    textOfBytes? (s.toList.flatMap String.utf8EncodeChar) = some s := by
  have hbytes : (⟨(s.toList.flatMap String.utf8EncodeChar).toArray⟩ : ByteArray) =
      s.toByteArray := by
    rw [← String.utf8Encode_toList, List.utf8Encode, ByteArray.ext_iff, List.data_toByteArray]
  rw [textOfBytes?, hbytes, String.fromUTF8?, dif_pos s.isValidUTF8]
  exact congrArg some (String.toByteArray_inj.mp rfl)

/-- Decoding undoes encoding, as long as the percent sign itself is encoded. -/
theorem decode_encode (h : keep '%' = false) (s : String) : decode (encode keep s) = s := by
  rw [decode, decode?, encode, String.toList_ofList, decodeBytes_encodeChars h,
    textOfBytes?_utf8, Option.getD_some]

/-- Nothing is written as a triple where every character is kept. -/
theorem encodeChars_eq_self {cs : List Char} (h : ∀ c ∈ cs, keep c = true) :
    encodeChars keep cs = cs := by
  have hself : encodeChars keep cs = cs.flatMap fun c => [c] :=
    List.flatMap_congr fun c hc => if_pos (h c hc)
  rw [hself, List.flatMap_singleton']

/-- A text without percent signs stands for itself. -/
theorem decode_eq_self {s : String} (h : '%' ∉ s.toList) : decode s = s := by
  have hkept : encode (· != '%') s = s := by
    rw [encode, encodeChars_eq_self, String.ofList_toList]
    exact fun c hc => bne_iff_ne.mpr fun he => h (he ▸ hc)
  have hdecode : decode (encode (· != '%') s) = s := decode_encode (by decide) s
  rwa [hkept] at hdecode

theorem encode_empty : encode keep "" = "" := by
  rw [encode, String.toList_empty, encodeChars, List.flatMap_nil, String.ofList_nil]

theorem encode_append (s t : String) : encode keep (s ++ t) = encode keep s ++ encode keep t := by
  rw [encode, String.toList_append, encodeChars, List.flatMap_append, String.ofList_append]
  rfl

theorem encode_singleton (c : Char) :
    encode keep (String.singleton c) = String.ofList (encodeChars keep [c]) := by
  rw [encode, String.toList_singleton]

theorem mem_encodeByte {b : UInt8} {c : Char} (h : c ∈ encodeByte b) :
    c.isAlphanum = true ∨ c = '%' := by
  have hb : b.toNat < 256 := b.toNat_lt
  rw [encodeByte] at h
  simp only [List.mem_cons, List.not_mem_nil, or_false] at h
  obtain rfl | rfl | rfl := h
  · exact .inr rfl
  · exact .inl (isAlphanum_upperHexDigit (by omega))
  · exact .inl (isAlphanum_upperHexDigit (by omega))

theorem mem_encodeChar {c d : Char} (h : c ∈ encodeChar d) : c.isAlphanum = true ∨ c = '%' := by
  rw [encodeChar, List.mem_flatMap] at h
  obtain ⟨b, -, hb⟩ := h
  exact mem_encodeByte hb

theorem encodeChar_ne_nil (c : Char) : encodeChar c ≠ [] := by
  have hbytes : String.utf8EncodeChar c ≠ [] := by
    rw [← List.length_pos_iff, String.length_utf8EncodeChar]
    exact c.utf8Size_pos
  obtain ⟨b, bytes, hb⟩ := List.exists_cons_of_ne_nil hbytes
  rw [encodeChar, hb, List.flatMap_cons]
  exact List.cons_ne_nil _ _

/-- The characters of what is encoded: kept ones, letters, digits and percent signs. -/
theorem mem_encodeChars {cs : List Char} {c : Char} (h : c ∈ encodeChars keep cs) :
    c ∈ cs ∧ keep c = true ∨ c.isAlphanum = true ∨ c = '%' := by
  rw [encodeChars, List.mem_flatMap] at h
  obtain ⟨d, hd, hc⟩ := h
  split at hc
  next hkeep =>
    rw [List.mem_singleton] at hc
    exact .inl (hc ▸ ⟨hd, hkeep⟩)
  next => exact .inr (mem_encodeChar hc)

/-- What is encoded ends in a triple, or as before if that is kept. -/
theorem getLast?_encodeChars {cs : List Char} {c : Char}
    (h : (encodeChars keep cs).getLast? = some c) :
    cs.getLast? = some c ∧ keep c = true ∨ c.isAlphanum = true ∨ c = '%' := by
  rcases List.eq_nil_or_concat cs with rfl | ⟨front, last, rfl⟩
  · cases h
  rw [encodeChars, List.concat_eq_append, List.flatMap_append, List.flatMap_singleton] at h
  split at h
  next hkeep =>
    rw [List.getLast?_concat] at h
    cases h
    exact .inl ⟨by rw [List.concat_eq_append, List.getLast?_concat], hkeep⟩
  next =>
    rw [List.getLast?_append, List.getLast?_eq_some_getLast (encodeChar_ne_nil last),
      Option.some_or] at h
    cases h
    exact .inr (mem_encodeChar (List.getLast_mem _))

/-- The characters of an encoded text: kept ones, letters, digits and percent signs. -/
theorem mem_encode {s : String} {c : Char} (h : c ∈ (encode keep s).toList) :
    keep c = true ∨ c.isAlphanum = true ∨ c = '%' := by
  rw [encode, String.toList_ofList] at h
  exact (mem_encodeChars h).imp_left And.right

end Percent

/-! ## Escaping all but unreserved characters -/

namespace Parameter

/-- Unreserved characters are visible ASCII characters. -/
theorem toNat_of_isUnreserved {c : Char} (h : isUnreserved c = true) :
    0x21 ≤ c.toNat ∧ c.toNat < 0x7F := by
  simp only [isUnreserved, Bool.or_eq_true, beq_iff_eq] at h
  obtain (((h | rfl) | rfl) | rfl) | rfl := h
  · have hrange := Text.toNat_of_isAlphanum h
    omega
  all_goals decide

theorem isBlank_of_isUnreserved {c : Char} (h : isUnreserved c = true) :
    Text.isBlank c = false :=
  Text.isBlank_of_visible (toNat_of_isUnreserved h).1 (toNat_of_isUnreserved h).2

theorem isUnreserved_percent : isUnreserved '%' = false := by
  decide

theorem decode_escapeUnreserved (s : String) : Percent.decode (escapeUnreserved s) = s :=
  Percent.decode_encode isUnreserved_percent s

/-- No delimiter occurs in an escaped text. -/
theorem mem_escapeUnreserved {s : String} {c : Char} (h : c ∈ (escapeUnreserved s).toList) :
    isUnreserved c = true ∨ c = '%' := by
  obtain hc | hc | rfl := Percent.mem_encode h
  · exact .inl hc
  · exact .inl (by simp [isUnreserved, hc])
  · exact .inr rfl

end Parameter

end OpenApi
