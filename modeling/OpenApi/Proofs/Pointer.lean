import Mathlib.Data.Nat.Digits.Defs
import OpenApi.Proofs.Percent
import OpenApi.Proofs.Text
import OpenApi.Schema.Resolution

/-!
# Pointers in references

The fragment of a reference may hold a JSON Pointer, whose segments are escaped twice: a tilde and a
slash as `~0` and `~1`, then all but unreserved characters as triples.

* `Reference.decodeSegment_escape`: decoding a segment undoes both;
* `Schema.position?_digits`: the digits of a position stand for it;
* `Schema.Graph.locate_pointer`: a reference that is a pointer is followed segment by segment.
-/

namespace OpenApi

open Text

/-! ## Segments -/

namespace Reference

open Parameter

theorem unescapeMark_cons_of_ne {mark replacement c : Char} (h : c ≠ '~') (cs : List Char) :
    unescapeMark mark replacement (c :: cs) = c :: unescapeMark mark replacement cs := by
  cases cs with
  | nil => simp [unescapeMark]
  | cons d cs => rw [unescapeMark, if_neg fun hc => h hc.1]

theorem unescapeMark_append_of_notMem {mark replacement : Char} {cs : List Char} (h : '~' ∉ cs)
    (rest : List Char) :
    unescapeMark mark replacement (cs ++ rest) = cs ++ unescapeMark mark replacement rest := by
  induction cs with
  | nil => rfl
  | cons c cs ih =>
    obtain ⟨hne, hcs⟩ := List.ne_and_not_mem_of_not_mem_cons h
    rw [List.cons_append, unescapeMark_cons_of_ne hne.symm, ih hcs, List.cons_append]

theorem unescapeMark_mark (mark replacement : Char) (cs : List Char) :
    unescapeMark mark replacement ('~' :: mark :: cs) =
      replacement :: unescapeMark mark replacement cs := by
  rw [unescapeMark, if_pos ⟨rfl, rfl⟩]

theorem unescapeMark_other {mark replacement d : Char} (h : d ≠ mark) (cs : List Char) :
    unescapeMark mark replacement ('~' :: d :: cs) =
      '~' :: unescapeMark mark replacement (d :: cs) := by
  rw [unescapeMark, if_neg fun hc => h hc.2]

/-- Marks are replaced piece by piece in a text made of pieces that can be told apart. -/
theorem unescapeMark_flatMap {mark replacement : Char} {f f' : Char → List Char}
    (h : ∀ c rest, unescapeMark mark replacement (f c ++ rest) =
      f' c ++ unescapeMark mark replacement rest) (cs : List Char) :
    unescapeMark mark replacement (cs.flatMap f) = cs.flatMap f' := by
  induction cs with
  | nil => rfl
  | cons c cs ih => rw [List.flatMap_cons, List.flatMap_cons, h, ih]

/-- The segment of a character in a fragment, the tilde and the slash written as given. -/
def segmentChar (tilde slash : List Char) (c : Char) : List Char :=
  if c = '~' then tilde else if c = '/' then slash
  else if isUnreserved c then [c] else Percent.encodeChar c

theorem tilde_notMem_encodeChar (c : Char) : '~' ∉ Percent.encodeChar c := by
  intro h
  obtain ⟨b, -, hb⟩ := List.mem_flatMap.mp h
  rcases Percent.mem_encodeByte hb with h | h
  · exact absurd h (by decide)
  · exact absurd h (by decide)

theorem unescapeMark_segmentChar {mark replacement : Char} {tilde slash tilde' slash' : List Char}
    (htilde : ∀ rest, unescapeMark mark replacement (tilde ++ rest) =
      tilde' ++ unescapeMark mark replacement rest)
    (hslash : ∀ rest, unescapeMark mark replacement (slash ++ rest) =
      slash' ++ unescapeMark mark replacement rest) (cs : List Char) :
    unescapeMark mark replacement (cs.flatMap (segmentChar tilde slash)) =
      cs.flatMap (segmentChar tilde' slash') := by
  refine unescapeMark_flatMap (fun c rest => ?_) cs
  simp only [segmentChar]
  split
  next => exact htilde rest
  next hc =>
    split
    next => exact hslash rest
    next =>
      split
      next => exact unescapeMark_append_of_notMem (by simpa using Ne.symm hc) rest
      next => exact unescapeMark_append_of_notMem (tilde_notMem_encodeChar c) rest

theorem toList_escape (key : String) : (escapeUnreserved (escapeSegment key)).toList =
    key.toList.flatMap (segmentChar ['~', '0'] ['~', '1']) := by
  rw [escapeUnreserved, Percent.encode, String.toList_ofList, escapeSegment, String.toList_ofList,
    Percent.encodeChars, List.flatMap_assoc]
  refine congrArg key.toList.flatMap (funext fun c => ?_)
  rw [segmentChar]
  split
  next => rfl
  next =>
    split
    next => rfl
    next => rw [List.flatMap_singleton]

/-- Decoding a segment undoes escaping it. -/
theorem decodeSegment_escape (key : String) :
    decodeSegment (escapeUnreserved (escapeSegment key)) = key := by
  have hslash : unescapeMark '1' '/' (escapeUnreserved (escapeSegment key)).toList =
      key.toList.flatMap (segmentChar ['~', '0'] ['/']) := by
    rw [toList_escape]
    refine unescapeMark_segmentChar (fun rest => ?_) (fun rest => ?_) _
    · exact (unescapeMark_other (by decide) _).trans
        (congrArg _ (unescapeMark_cons_of_ne (by decide) _))
    · exact unescapeMark_mark _ _ _
  have htilde : unescapeMark '0' '~' (key.toList.flatMap (segmentChar ['~', '0'] ['/'])) =
      key.toList.flatMap (segmentChar ['~'] ['/']) :=
    unescapeMark_segmentChar (fun _ => unescapeMark_mark _ _ _)
      (fun _ => unescapeMark_cons_of_ne (by decide) _) _
  -- What is left has kept the slash as well, which no reader of triples takes for one.
  have hkeep : key.toList.flatMap (segmentChar ['~'] ['/']) =
      Percent.encodeChars (fun c => isUnreserved c || c == '/') key.toList := by
    refine congrArg key.toList.flatMap (funext fun c => ?_)
    rw [segmentChar]
    split
    next h => subst h; rfl
    next =>
      split
      next h => subst h; rfl
      next h => simp [h]
  rw [decodeSegment, hslash, htilde, hkeep]
  exact Percent.decode_encode (by decide) key

theorem slash_notMem_escape (key : String) :
    '/' ∉ (escapeUnreserved (escapeSegment key)).toList := by
  intro h
  rcases mem_escapeUnreserved h with h | h
  · exact absurd h (by decide)
  · exact absurd h (by decide)

/-- A pointer in a fragment. -/
def pointerText (tokens : List String) : String :=
  String.join ((tokens.map fun token => escapeUnreserved (escapeSegment token)).map ("/" ++ ·))

theorem pointerText_cons (token : String) (tokens : List String) :
    pointerText (token :: tokens) =
      "/" ++ escapeUnreserved (escapeSegment token) ++ pointerText tokens := by
  rw [pointerText, List.map_cons, List.map_cons, String.join_cons, pointerText]

theorem toList_pointerText {tokens : List String} (h : tokens ≠ []) :
    ∃ cs, (pointerText tokens).toList = '/' :: cs ∧
      (splitOn '/' cs).map (fun piece => decodeSegment (String.ofList piece)) = tokens := by
  have hne : tokens.map (fun token => escapeUnreserved (escapeSegment token)) ≠ [] := by
    simpa using h
  refine ⟨_, toList_join_prefixed rfl hne, ?_⟩
  rw [String.toList_intercalate]
  show (splitOn '/' (['/'].intercalate _)).map _ = tokens
  rw [splitOn_intercalate (by simpa using h)]
  · simp [decodeSegment_escape, Function.comp_def]
  · simp only [List.map_map, List.mem_map]
    rintro _ ⟨token, -, rfl⟩
    exact slash_notMem_escape token

theorem mem_pointerText {tokens : List String} {c : Char} (h : c ∈ (pointerText tokens).toList) :
    c = '/' ∨ isUnreserved c = true ∨ c = '%' := by
  simp only [pointerText, String.toList_join, List.mem_flatMap, List.mem_map] at h
  obtain ⟨_, ⟨_, ⟨token, -, rfl⟩, rfl⟩, hc⟩ := h
  rw [String.toList_append] at hc
  rcases List.mem_append.mp hc with hc | hc
  · exact .inl (List.mem_singleton.mp hc)
  · exact .inr (mem_escapeUnreserved hc)

/-- A pointer as a reference. -/
def pointer (tokens : List String) : String := "#" ++ pointerText tokens

theorem trim_pointer (tokens : List String) : trim (pointer tokens) = pointer tokens := by
  refine trim_eq_self fun c hc => ?_
  rw [pointer, String.toList_append] at hc
  rcases List.mem_append.mp hc with hc | hc
  · rw [List.mem_singleton.mp hc]
    decide
  · rcases mem_pointerText hc with rfl | hc | rfl
    · decide
    · exact isBlank_of_isUnreserved hc
    · decide

theorem splitFragment_hash (fragment : String) :
    splitFragment ("#" ++ fragment) = ("", some fragment) := by
  have hcut : cut? '#' ("#" ++ fragment).toList = some ([], fragment.toList) := by
    rw [String.toList_append]
    exact cut?_append List.not_mem_nil
  rw [splitFragment, hcut]
  simp

theorem splitFragment_pointer (tokens : List String) :
    splitFragment (pointer tokens) = ("", some (pointerText tokens)) :=
  splitFragment_hash (pointerText tokens)

end Reference

/-! ## Positions -/

namespace Schema

/-- The digits of a position below the bound stand for it. -/
theorem position?_digits {i : Nat} (h : i < 2 ^ 64) :
    Graph.position? (String.ofList (Nat.toDigits 10 i)) = some i := by
  have hdigit : ∀ c ∈ Nat.toDigits 10 i, c.isDigit = true := fun c hc =>
    Nat.isDigit_of_mem_toDigits (by decide) (by decide) hc
  have hfold : (Nat.toDigits 10 i).foldl (fun acc c => acc * 10 + (c.toNat - 0x30)) 0 = i := by
    have hvalue := Nat.ofDigitChars_ten_toDigits (n := i)
    simp only [Nat.ofDigitChars_eq_foldl, Nat.mul_comm 10] at hvalue
    exact hvalue
  rw [Graph.position?, String.toList_ofList]
  split
  next cs hplus =>
    have hmem : '+' ∈ Nat.toDigits 10 i := hplus ▸ List.mem_cons_self
    exact absurd (hdigit '+' hmem) (by decide)
  next =>
    have hne : (Nat.toDigits 10 i).isEmpty = false :=
      List.isEmpty_eq_false_iff.mpr Nat.toDigits_ne_nil
    have hall : (Nat.toDigits 10 i).all Char.isDigit = true := List.all_eq_true.mpr hdigit
    simp only [hne, hall, hfold]
    exact if_pos h

/-! ## Fragments -/

namespace Graph

open Reference

/-- The first token of a pointer is no empty key, and it does not lead to the components. -/
def StaysInSchema (tokens : List String) : Prop :=
  ∀ word ∈ tokens.head?, word ≠ "" ∧ word ≠ "components"

variable {g : Graph} {start base id : NodeId} {tokens : List String}

/-- Follows the tokens of a pointer from the component that they name, or else from a resource. -/
def followTokens (g : Graph) (base : NodeId) : List String → Option NodeId
  | "components" :: "schemas" :: name :: rest =>
    (g.named.get? name).bind fun id => g.walkPointer id rest
  | tokens => g.walkPointer base tokens

/-- What stands after the slashes of a fragment is followed, if anything stands there. -/
theorem resolveFragment_slash {fragment : String} {cs : List Char}
    (h : fragment.toList = '/' :: cs) (hne : cs ≠ []) : g.resolveFragment base fragment =
      g.followTokens base ((splitOn '/' cs).map fun s => decodeSegment (String.ofList s)) := by
  rw [resolveFragment, h]
  split
  next h => cases h
  next h => exact absurd (List.cons.inj h).2 hne
  next hslash =>
    cases hslash
    rfl
  next hslash => exact absurd rfl (hslash _)

/-- The pointer to the empty key is taken for no pointer. -/
theorem resolveFragment_tokens (hne : tokens ≠ []) (hkey : tokens ≠ [""]) :
    g.resolveFragment base (pointerText tokens) = g.followTokens base tokens := by
  obtain ⟨cs, hcs, htokens⟩ := toList_pointerText hne
  have hnil : cs ≠ [] := by
    rintro rfl
    exact hkey htokens.symm
  rw [resolveFragment_slash hcs hnil, htokens]

/-- A fragment that holds a pointer is followed segment by segment. -/
theorem resolveFragment_pointerText (h : StaysInSchema tokens) :
    g.resolveFragment base (pointerText tokens) = g.walkPointer base tokens := by
  by_cases hne : tokens = []
  · subst hne
    rfl
  have hkey : tokens ≠ [""] := by
    rintro rfl
    exact (h "" rfl).1 rfl
  rw [resolveFragment_tokens hne hkey, followTokens.eq_def]
  split
  next => exact absurd rfl (h "components" rfl).2
  next => rfl

/-- A reference that is a pointer is followed from the resource around the node. -/
theorem locate_pointer (h : StaysInSchema tokens) :
    g.locate (some start) (pointer tokens) = g.walkPointer (g.resourceRoot start) tokens := by
  rw [locate, splitFragment_pointer]
  simp only [Option.getD_some, Option.map_some, Option.some_or]
  exact resolveFragment_pointerText h

theorem resolve_pointer (h : StaysInSchema tokens)
    (hwalk : g.walkPointer (g.resourceRoot start) tokens = some id) :
    g.resolve (some start) (pointer tokens) = some id := by
  rw [resolve, trim_pointer, locate_pointer h, hwalk]
  rfl

end Graph

end Schema

end OpenApi
