import OpenApi.Proofs.Parameter.Reserved
import OpenApi.Proofs.Pointer

/-!
# Spellings of pointer segments

In a fragment a character may stand as it is or as the triples of its bytes, so that one pointer
segment has many spellings (`Percent.Spelled`). Tildes and what stands after them are looked at
before the triples are decoded, and are not seen where they are written as triples.

* `Percent.decodeBytes_triples`: triples with digits of either case stand for their bytes;
* `Reference.read_pair`: an escape is read as the character that it stands for, or as two where a
  triple hides it;
* `Reference.decodeSegment_spelled_iff`: a spelling is decoded to its key exactly if no escape is
  hidden.
-/

namespace OpenApi

open Text

/-! ## Spellings -/

namespace Percent

/-- Bytes as triples, with hexadecimal digits of either case. -/
inductive Triples : List UInt8 → List Char → Prop
  | nil : Triples [] []
  | cons {b : UInt8} {bytes : List UInt8} {d e : Char} {w : List Char} :
    hexValue? d = some (b.toNat / 16) → hexValue? e = some (b.toNat % 16) → Triples bytes w →
    Triples (b :: bytes) ('%' :: d :: e :: w)

/-- Whether a character may stand in a pointer segment of a fragment as it is. -/
def isLiteral (c : Char) : Bool := c != '%' && c != '#' && c != '/'

/-- A text in which every character stands as it is or as the triples of its bytes. -/
inductive Spelled : List Char → List Char → Prop
  | nil : Spelled [] []
  | literal {c : Char} {cs w : List Char} : isLiteral c → Spelled cs w →
    Spelled (c :: cs) (c :: w)
  | encoded {c : Char} {cs front w : List Char} : Triples (String.utf8EncodeChar c) front →
    Spelled cs w → Spelled (c :: cs) (front ++ w)

theorem decodeBytes_triples {bytes : List UInt8} {front : List Char} (h : Triples bytes front)
    (w : List Char) : decodeBytes (front ++ w) = bytes ++ decodeBytes w := by
  induction h with
  | nil => rfl
  | @cons b bytes d e front hd he _ ih =>
    have hsum : 16 * (b.toNat / 16) + b.toNat % 16 = b.toNat := by omega
    rw [List.cons_append, List.cons_append, List.cons_append, decodeBytes, if_pos rfl, hd, he]
    simp only [hsum, UInt8.ofNat_toNat, ih, List.cons_append]

theorem Triples.exists_cons {bytes : List UInt8} {front : List Char} (h : Triples bytes front)
    (hne : bytes ≠ []) : ∃ rest, front = '%' :: rest := by
  cases h with
  | nil => exact absurd rfl hne
  | cons => exact ⟨_, rfl⟩

theorem tilde_notMem_triples {bytes : List UInt8} {front : List Char} (h : Triples bytes front) :
    '~' ∉ front := by
  have hdigit : hexValue? '~' = none := by decide
  have hne : ∀ {c : Char} {n : Nat}, hexValue? c = some n → '~' ≠ c := by
    rintro c n hc rfl
    rw [hdigit] at hc
    cases hc
  induction h with
  | nil => exact List.not_mem_nil
  | cons hd he _ ih => simp [hne hd, hne he, ih]

end Percent

/-! ## Hidden escapes -/

namespace Reference

open Percent

/-- What an escape looks like where it is hidden: the tilde as a triple, or a triple after it. -/
def hiddenEscapes : List (List Char) := [['%', '7', 'E'], ['%', '7', 'e'], ['~', '%']]

/-- Whether a tilde of the text, or what stands after one, is written as a triple. -/
def hidesEscape (w : List Char) : Bool := hiddenEscapes.any (contains · w)

/-- Whether the text begins so. -/
def startsHidden (w : List Char) : Bool := hiddenEscapes.any (·.isPrefixOf w)

section

variable {c d : Char} {bytes : List UInt8} {front w : List Char}

theorem hidesEscape_cons (c : Char) (w : List Char) :
    hidesEscape (c :: w) = (startsHidden (c :: w) || hidesEscape w) := by
  simp only [hidesEscape, startsHidden, hiddenEscapes, List.any_cons, List.any_nil, contains,
    Bool.or_false]
  ac_rfl

theorem hidesEscape_cons_of_ne (hp : c ≠ '%') (ht : c ≠ '~') :
    hidesEscape (c :: w) = hidesEscape w := by
  have hstarts : startsHidden (c :: w) = false := by
    simp [startsHidden, hiddenEscapes, List.isPrefixOf_cons_cons, hp.symm, ht.symm]
  rw [hidesEscape_cons, hstarts, Bool.false_or]

theorem hidesEscape_tilde (h : d ≠ '%') : hidesEscape ('~' :: d :: w) = hidesEscape (d :: w) := by
  have hstarts : startsHidden ('~' :: d :: w) = false := by
    simp [startsHidden, hiddenEscapes, List.isPrefixOf_cons_cons, h.symm]
  rw [hidesEscape_cons, hstarts, Bool.false_or]

theorem hidesEscape_tilde_percent (w : List Char) : hidesEscape ('~' :: '%' :: w) = true := by
  rw [hidesEscape_cons]
  rfl

/-- The digits of a tilde in a triple. -/
theorem digits_tilde {e : Char} (hd : hexValue? d = some 7) (he : hexValue? e = some 14) :
    d = '7' ∧ (e = 'E' ∨ e = 'e') := by
  have ascii : ∀ {c : Char} {n : Nat}, hexValue? c = some n →
      ∃ i : Fin 0x80, c = Char.ofNat i := fun {c n} hc =>
    ⟨⟨c.toNat, Parameter.ByteScan.toNat_lt_of_isHex (by rw [isHex, hc]; rfl)⟩,
      (Char.ofNat_toNat c).symm⟩
  have seven : ∀ i : Fin 0x80, hexValue? (Char.ofNat i) = some 7 → Char.ofNat i = '7' := by
    decide +kernel
  have fourteen : ∀ i : Fin 0x80, hexValue? (Char.ofNat i) = some 14 →
      Char.ofNat i = 'E' ∨ Char.ofNat i = 'e' := by
    decide +kernel
  obtain ⟨i, rfl⟩ := ascii hd
  obtain ⟨j, rfl⟩ := ascii he
  exact ⟨seven i hd, fourteen j he⟩

/-- A tilde is hidden by its triple, and by nothing else that is written in triples. -/
theorem hidesEscape_triples (h : Triples bytes front) (w : List Char) :
    hidesEscape (front ++ w) = (decide (0x7E ∈ bytes) || hidesEscape w) := by
  induction h with
  | nil => simp
  | @cons b bytes d e front hd he _ ih =>
    have hne : ∀ {c : Char} {n : Nat}, hexValue? c = some n → c ≠ '%' ∧ c ≠ '~' := by
      rintro c n hc
      constructor <;> rintro rfl <;> cases hc
    have hrest : hidesEscape (d :: e :: (front ++ w)) = hidesEscape (front ++ w) := by
      rw [hidesEscape_cons_of_ne (hne hd).1 (hne hd).2, hidesEscape_cons_of_ne (hne he).1 (hne he).2]
    rw [List.cons_append, List.cons_append, List.cons_append, hidesEscape_cons, hrest, ih,
      ← Bool.or_assoc]
    congr 1
    by_cases hb : b = 0x7E
    · subst hb
      obtain ⟨rfl, rfl | rfl⟩ := digits_tilde hd he
      · simp [startsHidden, hiddenEscapes]
      · simp [startsHidden, hiddenEscapes]
    · have hstarts : startsHidden ('%' :: d :: e :: (front ++ w)) = false := by
        refine Bool.eq_false_iff.mpr fun hs => hb ?_
        obtain ⟨rfl, hdigit⟩ : '7' = d ∧ ('E' = e ∨ 'e' = e) := by
          simpa [startsHidden, hiddenEscapes, and_or_left] using hs
        have hhigh : b.toNat / 16 = 7 := (Option.some.inj hd).symm
        have hlow : b.toNat % 16 = 14 := by
          rcases hdigit with rfl | rfl
          · exact (Option.some.inj he).symm
          · exact (Option.some.inj he).symm
        have hsum : b.toNat = 0x7E := by omega
        exact UInt8.toNat_inj.mp hsum
      simp [hstarts, Ne.symm hb]

/-! ## Reading a spelling -/

/-- The bytes that a segment stands for once its escapes are replaced. -/
def segmentBytes (w : List Char) : List UInt8 :=
  decodeBytes (unescapeMark '0' '~' (unescapeMark '1' '/' w))

theorem segmentBytes_append (h : '~' ∉ front)
    (hread : ∀ w, decodeBytes (front ++ w) = bytes ++ decodeBytes w) (w : List Char) :
    segmentBytes (front ++ w) = bytes ++ segmentBytes w := by
  rw [segmentBytes, unescapeMark_append_of_notMem h, unescapeMark_append_of_notMem h, hread,
    segmentBytes]

theorem segmentBytes_cons (hp : c ≠ '%') (ht : c ≠ '~') (w : List Char) :
    segmentBytes (c :: w) = String.utf8EncodeChar c ++ segmentBytes w := by
  have hfront : '~' ∉ [c] := by simpa using ht.symm
  exact segmentBytes_append hfront (decodeBytes_cons_of_ne hp) w

theorem segmentBytes_triples (h : Triples bytes front) (w : List Char) :
    segmentBytes (front ++ w) = bytes ++ segmentBytes w :=
  segmentBytes_append (tilde_notMem_triples h) (decodeBytes_triples h) w

theorem segmentBytes_tilde_zero (w : List Char) :
    segmentBytes ('~' :: '0' :: w) = String.utf8EncodeChar '~' ++ segmentBytes w := by
  rw [segmentBytes, unescapeMark_other (by decide), unescapeMark_cons_of_ne (c := '0') (by decide),
    unescapeMark_mark, decodeBytes_cons_of_ne (by decide), segmentBytes]

theorem segmentBytes_tilde_one (w : List Char) :
    segmentBytes ('~' :: '1' :: w) = String.utf8EncodeChar '/' ++ segmentBytes w := by
  rw [segmentBytes, unescapeMark_mark, unescapeMark_cons_of_ne (by decide),
    decodeBytes_cons_of_ne (by decide), segmentBytes]

/-- A tilde before a triple is no escape. -/
theorem segmentBytes_tilde_percent (w : List Char) :
    segmentBytes ('~' :: '%' :: w) = String.utf8EncodeChar '~' ++ segmentBytes ('%' :: w) := by
  have hpercent : unescapeMark '1' '/' ('%' :: w) = '%' :: unescapeMark '1' '/' w :=
    unescapeMark_cons_of_ne (by decide) w
  rw [segmentBytes, segmentBytes, unescapeMark_other (by decide), hpercent,
    unescapeMark_other (by decide), decodeBytes_cons_of_ne (by decide)]

/-- The escape of a character in a pointer segment. -/
def escapeChar (c : Char) : List Char :=
  if c = '~' then ['~', '0'] else if c = '/' then ['~', '1'] else [c]

/-- What is read from the spelling of a key: the key, or a longer text if an escape is hidden. -/
def ReadFrom (key w : List Char) : Prop :=
  ∃ text, segmentBytes w = text.flatMap String.utf8EncodeChar ∧
    if hidesEscape w then key.length < text.length else text = key

/-- The spelling of an escape is the escape, or hides it. -/
theorem read_pair {cs : List Char} (hd : d = '0' ∨ d = '1') (h : Spelled ('~' :: d :: cs) w) :
    ∃ w', Spelled cs w' ∧ (w = '~' :: d :: w' ∨ hidesEscape w = true ∧
      segmentBytes w = String.utf8EncodeChar '~' ++ String.utf8EncodeChar d ++ segmentBytes w') := by
  have hne : d ≠ '%' ∧ d ≠ '~' := by rcases hd with rfl | rfl <;> decide
  cases h with
  | literal _ h =>
    cases h with
    | @literal _ _ w' _ h => exact ⟨w', h, .inl rfl⟩
    | @encoded _ _ front w' ht h =>
      refine ⟨w', h, .inr ?_⟩
      obtain ⟨rest, rfl⟩ := ht.exists_cons String.utf8EncodeChar_ne_nil
      refine ⟨hidesEscape_tilde_percent _, ?_⟩
      have hrest := segmentBytes_triples ht w'
      rw [List.cons_append] at hrest ⊢
      rw [segmentBytes_tilde_percent, hrest, List.append_assoc]
  | @encoded _ _ front w₁ ht h =>
    have hhidden : hidesEscape (front ++ w₁) = true := by
      rw [hidesEscape_triples ht]
      rfl
    rw [hhidden, segmentBytes_triples ht]
    cases h with
    | @literal _ _ w' _ h =>
      exact ⟨w', h, .inr ⟨rfl, by rw [segmentBytes_cons hne.1 hne.2, List.append_assoc]⟩⟩
    | @encoded _ _ front' w' ht' h =>
      exact ⟨w', h, .inr ⟨rfl, by rw [segmentBytes_triples ht', List.append_assoc]⟩⟩

namespace ReadFrom

variable {key w' : List Char}

theorem plain (hbytes : segmentBytes w = String.utf8EncodeChar c ++ segmentBytes w')
    (hhides : hidesEscape w = hidesEscape w') (h : ReadFrom key w') : ReadFrom (c :: key) w := by
  obtain ⟨text, htext, h⟩ := h
  refine ⟨c :: text, by rw [hbytes, htext, List.flatMap_cons], ?_⟩
  rw [hhides]
  split at h
  next hw =>
    rw [if_pos hw]
    exact Nat.succ_lt_succ h
  next hw => rw [if_neg hw, h]

theorem hidden (hbytes : segmentBytes w =
      String.utf8EncodeChar '~' ++ String.utf8EncodeChar d ++ segmentBytes w')
    (hhides : hidesEscape w = true) (h : ReadFrom key w') : ReadFrom (c :: key) w := by
  obtain ⟨text, htext, h⟩ := h
  refine ⟨'~' :: d :: text, by simp [hbytes, htext], ?_⟩
  rw [if_pos hhides]
  split at h
  · simp only [List.length_cons]
    omega
  · simp [h]

end ReadFrom

/-- One character of the key after the other, its escape is read or its spelling. -/
theorem readFrom_spelled {key : List Char} (h : Spelled (key.flatMap escapeChar) w) :
    ReadFrom key w := by
  induction key generalizing w with
  | nil =>
    cases h
    exact ⟨[], rfl, rfl⟩
  | cons c key ih =>
    have escaped : ∀ {d}, d = '0' ∨ d = '1' → Spelled ('~' :: d :: key.flatMap escapeChar) w →
        (∀ w', segmentBytes ('~' :: d :: w') = String.utf8EncodeChar c ++ segmentBytes w') →
        ReadFrom (c :: key) w := by
      intro d hd h hread
      obtain ⟨w', hw', rfl | ⟨hhides, hbytes⟩⟩ := read_pair hd h
      · refine .plain (hread w') ?_ (ih hw')
        have hne : d ≠ '%' ∧ d ≠ '~' := by rcases hd with rfl | rfl <;> decide
        rw [hidesEscape_tilde hne.1, hidesEscape_cons_of_ne hne.1 hne.2]
      · exact .hidden hbytes hhides (ih hw')
    rw [List.flatMap_cons, escapeChar] at h
    split at h
    next hc =>
      subst hc
      exact escaped (.inl rfl) h segmentBytes_tilde_zero
    next ht =>
      split at h
      next hc =>
        subst hc
        exact escaped (.inr rfl) h segmentBytes_tilde_one
      next =>
        rw [List.singleton_append] at h
        cases h with
        | literal hc h =>
          have hp : c ≠ '%' := by
            rintro rfl
            cases hc
          exact .plain (segmentBytes_cons hp ht _) (hidesEscape_cons_of_ne hp ht) (ih h)
        | encoded htriples h =>
          refine .plain (segmentBytes_triples htriples _) ?_ (ih h)
          have hnot : (0x7E : UInt8) ∉ String.utf8EncodeChar c := fun hm =>
            ht (Parameter.ByteScan.utf8EncodeChar_eq_of_mem (by decide) hm).2
          rw [hidesEscape_triples htriples, decide_eq_false hnot, Bool.false_or]

end

/-- A spelling of the segment of a key is decoded to the key exactly if no tilde in it, and nothing
after one, is written as a triple. -/
theorem decodeSegment_spelled_iff {key segment : String}
    (h : Spelled (escapeSegment key).toList segment.toList) :
    decodeSegment segment = key ↔ hidesEscape segment.toList = false := by
  have hescape : (escapeSegment key).toList = key.toList.flatMap escapeChar := String.toList_ofList
  rw [hescape] at h
  obtain ⟨text, hbytes, htext⟩ := readFrom_spelled h
  have hdecode : decodeSegment segment = String.ofList text := by
    have htext := textOfBytes?_utf8 (String.ofList text)
    rw [String.toList_ofList, ← hbytes, segmentBytes] at htext
    rw [decodeSegment, decode, decode?, String.toList_ofList, htext, Option.getD_some]
  rw [hdecode]
  split at htext
  next hhides =>
    refine iff_of_false (fun he => ?_) (by simp [hhides])
    rw [← he, String.toList_ofList] at htext
    exact absurd htext (Nat.lt_irrefl _)
  next hhides =>
    rw [htext, String.ofList_toList]
    exact iff_of_true rfl (Bool.eq_false_iff.mpr hhides)

theorem decodeSegment_spelled_iff_mixed :
    Spelled (escapeSegment "~/%é").toList "~0~1%25%c3%A9".toList ∧
      (decodeSegment "~0~1%25%c3%A9" = "~/%é" ↔ hidesEscape "~0~1%25%c3%A9".toList = false) := by
  have hspelled : Spelled (escapeSegment "~/%é").toList "~0~1%25%c3%A9".toList := by
    have hpercent : Triples (String.utf8EncodeChar '%') ['%', '2', '5'] := .cons rfl rfl .nil
    have haccent : Triples (String.utf8EncodeChar 'é') ['%', 'c', '3', '%', 'A', '9'] :=
      .cons rfl rfl (.cons rfl rfl .nil)
    exact .literal rfl (.literal rfl (.literal rfl (.literal rfl
      (.encoded hpercent (.encoded haccent .nil)))))
  exact ⟨hspelled, decodeSegment_spelled_iff hspelled⟩

/-- Not every spelling is decoded to its key: the tilde of `~1` may be written as a triple. -/
theorem not_decodeSegment_spelled : ¬ ∀ key segment : String,
    Spelled (escapeSegment key).toList segment.toList → decodeSegment segment = key := by
  intro hall
  have htilde : Triples (String.utf8EncodeChar '~') ['%', '7', 'E'] := .cons rfl rfl .nil
  have hspelled : Spelled (escapeSegment "/").toList "%7E1".toList :=
    .encoded htilde (.literal rfl .nil)
  have hdecode : decodeSegment "%7E1" = "~1" := by decide +kernel
  exact absurd ((hall "/" "%7E1" hspelled).symm.trans hdecode) (by decide)

end Reference

end OpenApi
