import OpenApi.Proofs.Percent

/-!
# Escaping that keeps the reserved characters

A text is read as triples and other characters, from left to right (`triples_induction`). What is
escaped is built of the characters of URIs and of triples (`UriText`), stands for the same bytes
as before, and does not change again.

The escaping is also done by one scan over the bytes of the text, with an offset up to which the
text was written and the offset that is looked at (`ByteScan.scan?`). It cuts the text at these
offsets, and each of them is between two characters.

* `Parameter.escapeReserved_normalForm`: the laws together.
-/

namespace OpenApi.Parameter

open Text

variable {c d e : Char} {cs rest : List Char}

/-- The characters of URIs, one by one: letters, digits, `-._~`, and `:/?#[]@!$&'()*+,;=`. -/
theorem isUriCharacter_iff (c : Char) : isUriCharacter c = true ↔
    c ∈ "!#$&'()*+,-./0123456789:;=?@ABCDEFGHIJKLMNOPQRSTUVWXYZ[]_".toList ++
      "abcdefghijklmnopqrstuvwxyz~".toList := by
  refine iff_mem_of_filter (fun c hc => ?_) ?_ c
  · rw [isUriCharacter, Bool.or_eq_true, List.contains_iff_mem] at hc
    rcases hc with hc | hc
    · have hrange := toNat_of_isUnreserved hc
      omega
    · exact toNat_lt_of_mem (by decide) hc
  · decide +kernel

/-! ## Triples and other characters -/

/-- A text that begins with a `%XX` triple. -/
def StartsTriple (cs : List Char) : Prop :=
  ∃ d e rest, cs = '%' :: d :: e :: rest ∧ isHex d = true ∧ isHex e = true

/-- A text of the characters of URIs and `%XX` triples. -/
inductive UriText : List Char → Prop where
  | nil : UriText []
  | character {c : Char} {rest : List Char} (h : isUriCharacter c = true) (hrest : UriText rest) :
      UriText (c :: rest)
  | triple {d e : Char} {rest : List Char} (hd : isHex d = true) (he : isHex e = true)
      (hrest : UriText rest) : UriText ('%' :: d :: e :: rest)

theorem escapeReservedChars_triple (hd : isHex d = true) (he : isHex e = true) :
    escapeReservedChars ('%' :: d :: e :: rest) = '%' :: d :: e :: escapeReservedChars rest := by
  rw [escapeReservedChars, if_pos ⟨rfl, hd, he⟩]

theorem escapeReservedChars_cons (h : ¬ StartsTriple (c :: cs)) :
    escapeReservedChars (c :: cs) =
      Percent.encodeChars isUriCharacter [c] ++ escapeReservedChars cs := by
  match cs, h with
  | [], _ => rw [escapeReservedChars, escapeReservedChars, List.append_nil]
  | [d], _ =>
    rw [escapeReservedChars, escapeReservedChars, Percent.encodeChars, Percent.encodeChars,
      Percent.encodeChars, ← List.flatMap_append, List.singleton_append]
  | d :: e :: rest, h =>
    rw [escapeReservedChars, if_neg]
    rintro ⟨rfl, hd, he⟩
    exact h ⟨d, e, rest, rfl, hd, he⟩

/-- A text is empty, a triple and a text, or a character that begins no triple and a text. -/
theorem triples_induction {motive : List Char → Prop} (nil : motive [])
    (triple : ∀ d e rest, isHex d = true → isHex e = true → motive rest →
      motive ('%' :: d :: e :: rest))
    (character : ∀ c rest, ¬ StartsTriple (c :: rest) → motive rest → motive (c :: rest))
    (cs : List Char) : motive cs := by
  induction h : cs.length using Nat.strongRecOn generalizing cs with
  | ind n ih =>
    by_cases hstarts : StartsTriple cs
    · obtain ⟨d, e, rest, rfl, hd, he⟩ := hstarts
      exact triple d e rest hd he (ih rest.length (by simp only [List.length_cons] at h; omega)
        rest rfl)
    · cases cs with
      | nil => exact nil
      | cons c rest =>
        exact character c rest hstarts
          (ih rest.length (by simp only [List.length_cons] at h; omega) rest rfl)

/-! ## The form of what is escaped -/

namespace UriText

theorem append {front : List Char} (h : UriText front) (hcs : UriText cs) :
    UriText (front ++ cs) := by
  induction h with
  | nil => exact hcs
  | character hc _ ih => exact .character hc ih
  | triple hd he _ ih => exact .triple hd he ih

theorem encodeByte (b : UInt8) : UriText (Percent.encodeByte b) := by
  have hb : b.toNat < 256 := b.toNat_lt
  have hex {n : Nat} (hn : n < 16) : isHex (upperHexDigit n) = true := by
    rw [isHex, hexValue?_upperHexDigit hn, Option.isSome_some]
  exact .triple (hex (by omega)) (hex (by omega)) .nil

theorem flatMap_encodeByte (bytes : List UInt8) :
    UriText (bytes.flatMap Percent.encodeByte) := by
  induction bytes with
  | nil => exact .nil
  | cons b bytes ih => exact (encodeByte b).append ih

theorem encodeChars (cs : List Char) : UriText (Percent.encodeChars isUriCharacter cs) := by
  induction cs with
  | nil => exact .nil
  | cons c cs ih =>
    rw [Percent.encodeChars, List.flatMap_cons]
    refine append ?_ ih
    split
    next hc => exact .character hc .nil
    next => exact flatMap_encodeByte _

end UriText

theorem isUriCharacter_percent : isUriCharacter '%' = false := by decide

theorem uriText_escapeReservedChars (cs : List Char) : UriText (escapeReservedChars cs) := by
  induction cs using triples_induction with
  | nil => exact .nil
  | triple d e rest hd he ih =>
    rw [escapeReservedChars_triple hd he]
    exact .triple hd he ih
  | character c rest h ih =>
    rw [escapeReservedChars_cons h]
    exact (UriText.encodeChars [c]).append ih

/-- A character of URIs begins no triple. -/
theorem not_startsTriple_of_isUriCharacter (h : isUriCharacter c = true) :
    ¬ StartsTriple (c :: cs) := by
  rintro ⟨d, e, rest, heq, -, -⟩
  rw [(List.cons.inj heq).1, isUriCharacter_percent] at h
  cases h

theorem UriText.escapeReservedChars_eq (h : UriText cs) : escapeReservedChars cs = cs := by
  induction h with
  | nil => rfl
  | @character c rest hc _ ih =>
    have hself : Percent.encodeChars isUriCharacter [c] = [c] :=
      Percent.encodeChars_eq_self fun x hx => List.mem_singleton.mp hx ▸ hc
    rw [escapeReservedChars_cons (not_startsTriple_of_isUriCharacter hc), ih, hself,
      List.singleton_append]
  | triple hd he _ ih => rw [escapeReservedChars_triple hd he, ih]

/-! ## The bytes of what is escaped -/

theorem decodeBytes_triple (hd : isHex d = true) (he : isHex e = true) :
    ∃ b, ∀ rest, Percent.decodeBytes ('%' :: d :: e :: rest) = b :: Percent.decodeBytes rest := by
  obtain ⟨high, hhigh⟩ := Option.isSome_iff_exists.mp hd
  obtain ⟨low, hlow⟩ := Option.isSome_iff_exists.mp he
  refine ⟨UInt8.ofNat (16 * high + low), fun rest => ?_⟩
  rw [Percent.decodeBytes, if_pos rfl, hhigh, hlow]

/-- A character that begins no triple stands for its own bytes, the percent sign included. -/
theorem decodeBytes_cons (h : ¬ StartsTriple (c :: cs)) :
    Percent.decodeBytes (c :: cs) = String.utf8EncodeChar c ++ Percent.decodeBytes cs := by
  by_cases hc : c = '%'
  · match cs, h with
    | [], _ => simp [Percent.decodeBytes]
    | [d], _ => simp [Percent.decodeBytes]
    | d :: e :: rest, h =>
      rw [Percent.decodeBytes, if_pos hc]
      split
      next high low hhigh hlow =>
        exact absurd ⟨d, e, rest, by rw [hc], Option.isSome_iff_exists.mpr ⟨high, hhigh⟩,
          Option.isSome_iff_exists.mpr ⟨low, hlow⟩⟩ h
      next => rfl
  · exact Percent.decodeBytes_cons_of_ne hc cs

/-- A character that is written by itself or by triples stands for its bytes either way. -/
theorem decodeBytes_encodeChars_append (c : Char) (cs : List Char) :
    Percent.decodeBytes (Percent.encodeChars isUriCharacter [c] ++ cs) =
      String.utf8EncodeChar c ++ Percent.decodeBytes cs := by
  rw [Percent.encodeChars, List.flatMap_singleton]
  split
  next hc => exact decodeBytes_cons (not_startsTriple_of_isUriCharacter hc)
  next => exact Percent.decodeBytes_flatMap_encodeByte _ cs

theorem decodeBytes_escapeReservedChars (cs : List Char) :
    Percent.decodeBytes (escapeReservedChars cs) = Percent.decodeBytes cs := by
  induction cs using triples_induction with
  | nil => rfl
  | triple d e rest hd he ih =>
    obtain ⟨b, hb⟩ := decodeBytes_triple hd he
    rw [escapeReservedChars_triple hd he, hb, hb, ih]
  | character c rest h ih =>
    rw [escapeReservedChars_cons h, decodeBytes_encodeChars_append, ih, decodeBytes_cons h]

/-! ## The scan over bytes -/

namespace ByteScan

/-- The byte at an offset. -/
def byte? (s : String) (i : Nat) : Option UInt8 :=
  s.toByteArray.data[i]?

/-- Whether a byte is a hexadecimal digit of either case. -/
def isHexByte (b : UInt8) : Bool :=
  (0x30 ≤ b && b ≤ 0x39) || (0x41 ≤ b && b ≤ 0x46) || (0x61 ≤ b && b ≤ 0x66)

/-- Whether there is a triple at an offset. -/
def tripleAt (s : String) (i : Nat) : Bool :=
  byte? s i == some 0x25 && (byte? s (i + 1)).any isHexByte && (byte? s (i + 2)).any isHexByte

/-- The text between two offsets, if both are at the bounds of characters. -/
def slice? (s : String) (start stop : Nat) : Option String :=
  if h : String.Pos.Raw.IsValid s ⟨start⟩ ∧ String.Pos.Raw.IsValid s ⟨stop⟩ ∧ start ≤ stop then
    some (s.extract (s.pos ⟨start⟩ h.1) (s.pos ⟨stop⟩ h.2.1))
  else none

/-- Adds to `out` what is left of the text, written as far as `start` and looked at as far as
`i`; fails where a slice is not of whole characters. -/
def scan? (s out : String) (start i : Nat) : Option String :=
  if i < s.utf8ByteSize then
    if tripleAt s i then do
      let plain ← slice? s start i
      let triple ← slice? s i (i + 3)
      scan? s (out ++ Percent.encode isUriCharacter plain ++ triple) (i + 3) (i + 3)
    else scan? s out start (i + 1)
  else do
    let plain ← slice? s start s.utf8ByteSize
    some (out ++ Percent.encode isUriCharacter plain)
termination_by s.utf8ByteSize - i

/-! ### Bytes and slices of a text in parts -/

theorem byte?_append (front back : String) (k : Nat) :
    byte? (front ++ back) (front.utf8ByteSize + k) = byte? back k := by
  have hsize : front.toByteArray.data.size = front.utf8ByteSize := rfl
  rw [byte?, String.toByteArray_append, ByteArray.data_append,
    Array.getElem?_append_right (by omega), hsize, Nat.add_sub_cancel_left, byte?]

theorem tripleAt_append (front back : String) (k : Nat) :
    tripleAt (front ++ back) (front.utf8ByteSize + k) = tripleAt back k := by
  rw [tripleAt, Nat.add_assoc, Nat.add_assoc, byte?_append, byte?_append, byte?_append, tripleAt]

theorem byte?_ofList (cs : List Char) (k : Nat) :
    byte? (String.ofList cs) k = (cs.flatMap String.utf8EncodeChar)[k]? := by
  rw [byte?, String.toByteArray_ofList, List.utf8Encode, List.data_toByteArray,
    List.getElem?_toArray]

theorem isValid_append (front back : String) :
    String.Pos.Raw.IsValid (front ++ back) ⟨front.utf8ByteSize⟩ :=
  String.Pos.Raw.isValid_iff_exists_append.mpr ⟨front, back, rfl, rfl⟩

/-- The slice between two parts of a text is what stands between them. -/
theorem slice?_append (front mid back : String) :
    slice? (front ++ mid ++ back) front.utf8ByteSize (front.utf8ByteSize + mid.utf8ByteSize) =
      some mid := by
  have hstart := isValid_append front (mid ++ back)
  have hstop := isValid_append (front ++ mid) back
  rw [← String.append_assoc] at hstart
  rw [String.utf8ByteSize_append] at hstop
  rw [slice?, dif_pos ⟨hstart, hstop, Nat.le_add_right _ _⟩, Option.some.injEq,
    ← String.toByteArray_inj, String.toByteArray_extract, String.offset_pos, String.offset_pos,
    String.toByteArray_append, String.toByteArray_append, ByteArray.append_assoc]
  have hmid := ByteArray.extract_append_size_add (a := front.toByteArray)
    (b := mid.toByteArray ++ back.toByteArray) (i := 0) (j := mid.utf8ByteSize)
  rw [Nat.add_zero] at hmid
  exact hmid.trans (ByteArray.extract_append_eq_left rfl)

/-! ### Bytes below 0x80 -/

/-- A byte below 0x80 is all of the character that has it. -/
theorem utf8EncodeChar_eq_of_mem {b : UInt8} (hb : b < 0x80) (h : b ∈ String.utf8EncodeChar c) :
    String.utf8EncodeChar c = [b] ∧ c = Char.ofNat b.toNat := by
  have hlow : b.toNat < 0x80 := UInt8.lt_iff_toNat_lt.mp hb
  have hhigh {n : Nat} (hn : b = UInt8.ofNat n) (h1 : 0x80 ≤ n) (h2 : n < 0x100) : False := by
    rw [hn, UInt8.toNat_ofNat'] at hlow
    omega
  rw [String.utf8EncodeChar] at h ⊢
  split at h
  next hsize =>
    rw [if_pos hsize]
    have hb : b = UInt8.ofNat c.val.toNat := List.mem_singleton.mp h
    refine ⟨by rw [hb], ?_⟩
    rw [hb, UInt8.toNat_ofNat', Nat.mod_eq_of_lt (by omega)]
    exact (Char.ofNat_toNat c).symm
  next =>
    exfalso
    split at h
    · simp only [List.mem_cons, List.not_mem_nil, or_false] at h
      obtain h | h := h <;> exact hhigh h (by omega) (by omega)
    split at h
    · simp only [List.mem_cons, List.not_mem_nil, or_false] at h
      obtain h | h | h := h <;> exact hhigh h (by omega) (by omega)
    · simp only [List.mem_cons, List.not_mem_nil, or_false] at h
      obtain h | h | h | h := h <;> exact hhigh h (by omega) (by omega)

theorem isHexByte_eq {b : UInt8} (hb : b < 0x80) : isHexByte b = isHex (Char.ofNat b.toNat) := by
  have hall : ∀ n : Fin 0x80, isHexByte (UInt8.ofNat n) = isHex (Char.ofNat n) := by decide
  have hb := hall ⟨b.toNat, UInt8.lt_iff_toNat_lt.mp hb⟩
  rwa [UInt8.ofNat_toNat] at hb

theorem lt_of_isHexByte {b : UInt8} (h : isHexByte b = true) : b < 0x80 := by
  simp only [isHexByte, Bool.or_eq_true, Bool.and_eq_true, decide_eq_true_eq,
    UInt8.le_iff_toNat_le, UInt8.reduceToNat] at h
  have hlow : b.toNat < 0x80 := by omega
  exact UInt8.lt_iff_toNat_lt.mpr hlow

theorem toNat_lt_of_isHex (h : isHex c = true) : c.toNat < 0x80 := by
  have hdigit : '9'.val.toNat = 57 := by decide
  have hupper : 'F'.val.toNat = 70 := by decide
  have hlower : 'f'.val.toNat = 102 := by decide
  rw [isHex, hexValue?] at h
  simp only [Char.le_def, UInt32.le_iff_toNat_le] at h
  rw [Char.toNat]
  split at h
  · omega
  split at h
  · omega
  split at h
  · omega
  · cases h

/-- A digit is one byte, and that is a digit too. -/
theorem exists_isHexByte (h : isHex c = true) :
    ∃ b, isHexByte b = true ∧ String.utf8EncodeChar c = [b] := by
  have hc : c.val.toNat < 0x80 := toNat_lt_of_isHex h
  have hb : (UInt8.ofNat c.val.toNat).toNat = c.val.toNat := by
    rw [UInt8.toNat_ofNat', Nat.mod_eq_of_lt (by omega)]
  refine ⟨UInt8.ofNat c.val.toNat, ?_, ?_⟩
  · rw [isHexByte_eq (UInt8.lt_iff_toNat_lt.mpr (by rw [hb]; exact hc)), hb]
    exact (Char.ofNat_toNat c).symm ▸ h
  · rw [String.utf8EncodeChar, if_pos (by omega)]

/-- A text whose first byte is below 0x80 begins with the character of that byte. -/
theorem eq_cons_of_flatMap_utf8 {b : UInt8} {bytes : List UInt8} (hb : b < 0x80)
    (h : cs.flatMap String.utf8EncodeChar = b :: bytes) :
    ∃ rest, cs = Char.ofNat b.toNat :: rest ∧ rest.flatMap String.utf8EncodeChar = bytes := by
  cases cs with
  | nil => cases h
  | cons c rest =>
    rw [List.flatMap_cons] at h
    have hmem : b ∈ String.utf8EncodeChar c := by
      obtain ⟨b', bytes', hc⟩ := List.exists_cons_of_ne_nil (String.utf8EncodeChar_ne_nil (c := c))
      rw [hc] at h ⊢
      rw [(List.cons.inj h).1]
      exact List.mem_cons_self
    obtain ⟨hc, rfl⟩ := utf8EncodeChar_eq_of_mem hb hmem
    rw [hc] at h
    exact ⟨rest, rfl, (List.cons.inj h).2⟩

/-- A text begins with a triple of bytes where it begins with a triple of characters. -/
theorem tripleAt_ofList (cs : List Char) :
    tripleAt (String.ofList cs) 0 = true ↔ StartsTriple cs := by
  simp only [tripleAt, byte?_ofList, Bool.and_eq_true, beq_iff_eq, Option.any_eq_true]
  constructor
  · rintro ⟨⟨h0, d, h1, hd⟩, e, h2, he⟩
    obtain ⟨bytes, hbytes⟩ :
        ∃ bytes, cs.flatMap String.utf8EncodeChar = 0x25 :: d :: e :: bytes := by
      match hcs : cs.flatMap String.utf8EncodeChar with
      | [] | [_] | [_, _] => simp [hcs] at h2
      | _ :: _ :: _ :: bytes =>
        rw [hcs] at h0 h1 h2
        cases h0; cases h1; cases h2
        exact ⟨bytes, rfl⟩
    obtain ⟨_, rfl, hrest⟩ := eq_cons_of_flatMap_utf8 (by decide) hbytes
    obtain ⟨_, rfl, hback⟩ := eq_cons_of_flatMap_utf8 (lt_of_isHexByte hd) hrest
    obtain ⟨rest, rfl, -⟩ := eq_cons_of_flatMap_utf8 (lt_of_isHexByte he) hback
    exact ⟨_, _, rest, rfl, isHexByte_eq (lt_of_isHexByte hd) ▸ hd,
      isHexByte_eq (lt_of_isHexByte he) ▸ he⟩
  · rintro ⟨d, e, rest, rfl, hd, he⟩
    obtain ⟨b, hb, hd⟩ := exists_isHexByte hd
    obtain ⟨b', hb', he⟩ := exists_isHexByte he
    rw [List.flatMap_cons, List.flatMap_cons, List.flatMap_cons, hd, he]
    exact ⟨⟨rfl, b, rfl, hb⟩, b', rfl, hb'⟩

/-- No triple begins at a byte inside a character. -/
theorem tripleAt_inside {k : Nat} (h0 : 0 < k) (hk : k < c.utf8Size) :
    tripleAt (String.ofList (c :: cs)) k = false := by
  rw [Bool.eq_false_iff]
  intro h
  simp only [tripleAt, byte?_ofList, Bool.and_eq_true, beq_iff_eq] at h
  -- the byte of the percent sign would be all of the character
  have hbyte := h.1.1
  rw [List.flatMap_cons, List.getElem?_append_left (by rwa [String.length_utf8EncodeChar])]
    at hbyte
  have hc := (utf8EncodeChar_eq_of_mem (by decide) (List.mem_of_getElem? hbyte)).1
  have hlength := String.length_utf8EncodeChar c
  rw [hc, List.length_singleton] at hlength
  omega

/-! ### The scan -/

/-- Offsets without a triple are passed over. -/
theorem scan?_skip {s out : String} {start i : Nat} (n : Nat) (hn : i + n ≤ s.utf8ByteSize)
    (h : ∀ k < n, tripleAt s (i + k) = false) :
    scan? s out start i = scan? s out start (i + n) := by
  induction n with
  | zero => rfl
  | succ n ih =>
    rw [ih (by omega) fun k hk => h k (by omega), scan?, if_pos (by omega),
      if_neg (by rw [h n (by omega)]; exact Bool.false_ne_true), Nat.add_assoc]

theorem scan?_triple {s out plain triple : String} {start i : Nat} (hi : i < s.utf8ByteSize)
    (h : tripleAt s i = true) (hplain : slice? s start i = some plain)
    (htriple : slice? s i (i + 3) = some triple) :
    scan? s out start i =
      scan? s (out ++ Percent.encode isUriCharacter plain ++ triple) (i + 3) (i + 3) := by
  rw [scan?, if_pos hi, if_pos h, hplain, htriple]
  rfl

theorem scan?_end {s out plain : String} {start : Nat}
    (hplain : slice? s start s.utf8ByteSize = some plain) :
    scan? s out start s.utf8ByteSize = some (out ++ Percent.encode isUriCharacter plain) := by
  rw [scan?, if_neg (Nat.lt_irrefl _), hplain]
  rfl

theorem utf8ByteSize_ofList_cons (c : Char) (cs : List Char) :
    (String.ofList (c :: cs)).utf8ByteSize = c.utf8Size + (String.ofList cs).utf8ByteSize := by
  rw [String.ofList_cons, String.utf8ByteSize_append, String.utf8ByteSize_singleton]

theorem utf8Size_of_isHex (h : isHex c = true) : c.utf8Size = 1 := by
  obtain ⟨b, -, hb⟩ := exists_isHexByte h
  rw [← String.length_utf8EncodeChar, hb, List.length_singleton]

theorem utf8ByteSize_triple (hd : isHex d = true) (he : isHex e = true) :
    (String.ofList ['%', d, e]).utf8ByteSize = 3 := by
  rw [utf8ByteSize_ofList_cons, utf8ByteSize_ofList_cons, utf8ByteSize_ofList_cons,
    utf8Size_of_isHex hd, utf8Size_of_isHex he, String.ofList_nil]
  rfl

/-- What was looked at is written where a triple begins, and the triple after it. -/
theorem scan?_append_triple (hd : isHex d = true) (he : isHex e = true)
    (front plain back out : String) :
    let triple := String.ofList ['%', d, e]
    let s := front ++ plain ++ (triple ++ back)
    scan? s out front.utf8ByteSize (front ++ plain).utf8ByteSize =
      scan? s (out ++ Percent.encode isUriCharacter plain ++ triple)
        (front ++ plain ++ triple).utf8ByteSize (front ++ plain ++ triple).utf8ByteSize := by
  intro triple s
  have hsize : triple.utf8ByteSize = 3 := utf8ByteSize_triple hd he
  have hstop : (front ++ plain ++ triple).utf8ByteSize = (front ++ plain).utf8ByteSize + 3 := by
    rw [String.utf8ByteSize_append, hsize]
  have hat : tripleAt s (front ++ plain).utf8ByteSize = true := by
    have happend := tripleAt_append (front ++ plain) (triple ++ back) 0
    rw [Nat.add_zero] at happend
    rw [happend, ← String.ofList_toList (s := back), ← String.ofList_append, tripleAt_ofList]
    exact ⟨d, e, back.toList, rfl, hd, he⟩
  have hplain : slice? s front.utf8ByteSize (front ++ plain).utf8ByteSize = some plain := by
    rw [String.utf8ByteSize_append]
    exact slice?_append front plain (triple ++ back)
  have htriple : slice? s (front ++ plain).utf8ByteSize ((front ++ plain).utf8ByteSize + 3) =
      some triple := by
    have happend := slice?_append (front ++ plain) triple back
    rwa [hsize, String.append_assoc] at happend
  have hlt : (front ++ plain).utf8ByteSize < s.utf8ByteSize := by
    rw [String.utf8ByteSize_append (s := front ++ plain), String.utf8ByteSize_append (s := triple),
      hsize]
    omega
  rw [hstop, ← scan?_triple hlt hat hplain htriple]

/-- A character that begins no triple is passed over as a whole. -/
theorem scan?_append_character (h : ¬ StartsTriple (c :: cs)) (front out : String)
    (start : Nat) :
    let s := front ++ String.ofList (c :: cs)
    scan? s out start front.utf8ByteSize =
      scan? s out start (front ++ String.singleton c).utf8ByteSize := by
  intro s
  rw [String.utf8ByteSize_append, String.utf8ByteSize_singleton]
  refine scan?_skip c.utf8Size ?_ fun k hk => ?_
  · rw [String.utf8ByteSize_append, utf8ByteSize_ofList_cons]
    omega
  · rw [tripleAt_append]
    obtain rfl | hpos := Nat.eq_zero_or_pos k
    · exact Bool.eq_false_iff.mpr fun htriple => h ((tripleAt_ofList _).mp htriple)
    · exact tripleAt_inside hpos hk

/-- What the scan adds when `front` is written and `plain` is looked at but not written. -/
theorem scan?_eq (cs : List Char) (front plain out : String) :
    scan? (front ++ plain ++ String.ofList cs) out front.utf8ByteSize
        (front ++ plain).utf8ByteSize =
      some (out ++ Percent.encode isUriCharacter plain ++
        String.ofList (escapeReservedChars cs)) := by
  induction cs using triples_induction generalizing front plain out with
  | nil =>
    have hplain := slice?_append front plain ""
    rw [String.append_empty, ← String.utf8ByteSize_append] at hplain
    rw [String.ofList_nil, String.append_empty, scan?_end hplain, escapeReservedChars,
      String.ofList_nil, String.append_empty]
  | triple d e rest hd he ih =>
    -- all in front of the rest is written now, so that nothing is only looked at
    have hsplit (rest : List Char) : String.ofList ('%' :: d :: e :: rest) =
        String.ofList ['%', d, e] ++ String.ofList rest := by
      rw [← String.ofList_append, List.cons_append, List.cons_append, List.singleton_append]
    have hrest := ih (front ++ plain ++ String.ofList ['%', d, e]) ""
      (out ++ Percent.encode isUriCharacter plain ++ String.ofList ['%', d, e])
    rw [Percent.encode_empty, String.append_empty, String.append_empty] at hrest
    have hs : front ++ plain ++ (String.ofList ['%', d, e] ++ String.ofList rest) =
        front ++ plain ++ String.ofList ['%', d, e] ++ String.ofList rest :=
      String.append_assoc.symm
    rw [escapeReservedChars_triple hd he, hsplit rest, hsplit (escapeReservedChars rest),
      scan?_append_triple hd he, hs, hrest, String.append_assoc]
  | character c rest h ih =>
    -- the character joins what is looked at
    have hrest := ih front (plain ++ String.singleton c) out
    have hs : front ++ (plain ++ String.singleton c) ++ String.ofList rest =
        front ++ plain ++ String.ofList (c :: rest) := by
      rw [String.ofList_cons, String.append_assoc, String.append_assoc, String.append_assoc]
    rw [hs, ← String.append_assoc] at hrest
    rw [scan?_append_character h, hrest, Percent.encode_append, escapeReservedChars_cons h,
      String.ofList_append, Percent.encode_singleton, String.append_assoc, String.append_assoc,
      String.append_assoc]

/-- The scan of a text from its first byte. -/
def escape? (s : String) : Option String := scan? s "" 0 0

theorem escape?_eq (s : String) : escape? s = some (escapeReserved s) := by
  have hscan := scan?_eq s.toList "" "" ""
  rw [Percent.encode_empty, String.ofList_toList, String.empty_append, String.empty_append,
    String.empty_append] at hscan
  exact hscan

end ByteScan

/-! ## The laws together -/

/-- What is escaped is built of the characters of URIs and of triples, stands for the same bytes,
is the text itself exactly if that was so built, and does not change when escaped again. The scan
over bytes gives it too, and takes no slice but of whole characters. -/
theorem escapeReserved_normalForm (s : String) :
    UriText (escapeReserved s).toList ∧
      Percent.decodeBytes (escapeReserved s).toList = Percent.decodeBytes s.toList ∧
      (escapeReserved s = s ↔ UriText s.toList) ∧
      escapeReserved (escapeReserved s) = escapeReserved s ∧
      ByteScan.escape? s = some (escapeReserved s) := by
  have hform : UriText (escapeReserved s).toList := by
    rw [escapeReserved, String.toList_ofList]
    exact uriText_escapeReservedChars s.toList
  have hself {t : String} (h : UriText t.toList) : escapeReserved t = t := by
    rw [escapeReserved, h.escapeReservedChars_eq, String.ofList_toList]
  refine ⟨hform, ?_, ⟨fun h => h ▸ hform, hself⟩, hself hform, ByteScan.escape?_eq s⟩
  rw [escapeReserved, String.toList_ofList, decodeBytes_escapeReservedChars]

end OpenApi.Parameter
