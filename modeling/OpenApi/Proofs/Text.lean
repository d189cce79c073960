import Mathlib.Data.List.DropRight
import OpenApi.Text

/-!
# Cutting and joining texts

Cutting a text at a separator finds the pieces again that were joined with it, if the separator does
not occur in them.

* `Text.iff_mem_of_filter`: the characters of a class, one by one;
* `Text.cut?_append`: the first separator is the one that was put there;
* `Text.splitOn_intercalate`: splitting undoes joining;
* `Text.splitOn_eq_iff`: the pieces of a text are the only ones without separators that join to it;
* `Text.toList_join_prefixed`: texts with a separator before each;
* `Text.trimChars_eq_self`: a text without white space is its own trimming;
* `Text.trimChars_trimChars`: and so is a text that was trimmed;
* `Text.trimChars_append`: trimming changes nothing between two characters that stay.
-/

namespace OpenApi.Text

variable {sep : Char} {cs ds : List Char}

/-! ## ASCII characters -/

/-- The characters of a class of ASCII characters, if they are found one by one. -/
theorem iff_mem_of_filter {p : Char → Bool} {cs : List Char} (hp : ∀ c, p c = true → c.toNat < 0x80)
    (h : ((List.range 0x80).map Char.ofNat).filter p = cs) (c : Char) : p c = true ↔ c ∈ cs := by
  rw [← h, List.mem_filter]
  refine ⟨fun hc => ⟨List.mem_map.mpr ⟨c.toNat, ?_, Char.ofNat_toNat c⟩, hc⟩, And.right⟩
  exact List.mem_range.mpr (hp c hc)

theorem toNat_lt_of_mem {cs : List Char} (h : cs.all (·.toNat < 0x80) = true) {c : Char}
    (hc : c ∈ cs) : c.toNat < 0x80 :=
  of_decide_eq_true (List.all_eq_true.mp h c hc)

theorem toNat_of_isAlphanum {c : Char} (h : c.isAlphanum = true) :
    0x30 ≤ c.toNat ∧ c.toNat < 0x7B := by
  delta Char.isAlphanum Char.isAlpha Char.isUpper Char.isLower Char.isDigit at h
  simp only [Bool.or_eq_true, Bool.and_eq_true, decide_eq_true_eq, ge_iff_le,
    UInt32.le_iff_toNat_le] at h
  have upper : 'A'.val.toNat = 65 ∧ 'Z'.val.toNat = 90 := by decide
  have lower : 'a'.val.toNat = 97 ∧ 'z'.val.toNat = 122 := by decide
  have digit : '0'.val.toNat = 48 ∧ '9'.val.toNat = 57 := by decide
  rw [Char.toNat]
  omega

/-! ## Trimming -/

theorem isBlank_of_visible {c : Char} (low : 0x21 ≤ c.toNat) (high : c.toNat < 0x7F) :
    isBlank c = false := by
  simp only [isBlank, Bool.or_eq_false_iff, Bool.and_eq_false_iff, decide_eq_false_iff_not,
    beq_eq_false_iff_ne]
  omega

theorem dropWhile_eq_self {p : Char → Bool} (h : ∀ c ∈ cs, p c = false) : cs.dropWhile p = cs := by
  cases cs with
  | nil => rfl
  | cons c cs => rw [List.dropWhile_cons, h c List.mem_cons_self, if_neg Bool.false_ne_true]

theorem trimChars_eq_self (h : ∀ c ∈ cs, isBlank c = false) : trimChars cs = cs := by
  have hreverse : ∀ c ∈ cs.reverse, isBlank c = false :=
    fun c hc => h c (List.mem_reverse.mp hc)
  rw [trimChars, dropWhile_eq_self h, dropEndWhile, dropWhile_eq_self hreverse,
    List.reverse_reverse]

theorem trim_eq_self {s : String} (h : ∀ c ∈ s.toList, isBlank c = false) : trim s = s := by
  rw [trim, trimChars_eq_self h, String.ofList_toList]

theorem getLast?_dropEndWhile {p : Char → Bool} {c : Char}
    (h : (dropEndWhile p cs).getLast? = some c) : p c = false := by
  have hne : cs.rdropWhile p ≠ [] := by
    intro hnil
    rw [show dropEndWhile p cs = [] from hnil] at h
    cases h
  have hlast := List.rdropWhile_last_not p cs hne
  rw [show dropEndWhile p cs = cs.rdropWhile p from rfl, List.getLast?_eq_some_getLast hne] at h
  cases h
  simpa using hlast

/-- A text is its own trimming if it neither begins nor ends with white space. -/
theorem trim_eq_self_of_ends {s : String} (hfirst : ∀ c ∈ s.toList.head?, isBlank c = false)
    (hlast : ∀ c ∈ s.toList.getLast?, isBlank c = false) : trim s = s := by
  have hfront : s.toList.dropWhile isBlank = s.toList := by
    cases hs : s.toList with
    | nil => rfl
    | cons c cs =>
      rw [hs] at hfirst
      rw [List.dropWhile_cons, hfirst c rfl, if_neg Bool.false_ne_true]
  have hback : dropEndWhile isBlank s.toList = s.toList := by
    refine List.rdropWhile_eq_self_iff.mpr fun hne => ?_
    rw [hlast _ (List.getLast?_eq_some_getLast hne)]
    exact Bool.false_ne_true
  rw [trim, trimChars, hfront, hback, String.ofList_toList]

/-- Taking characters off the end leaves the beginning as it is. -/
theorem dropWhile_dropEndWhile {p : Char → Bool} (h : cs.dropWhile p = cs) :
    (dropEndWhile p cs).dropWhile p = dropEndWhile p cs := by
  have hfront : dropEndWhile p cs <+: cs := List.rdropWhile_prefix p cs
  rw [List.dropWhile_eq_self_iff] at h ⊢
  intro hlength
  rw [hfront.getElem hlength]
  exact h (Nat.lt_of_lt_of_le hlength hfront.length_le)

/-- A character that stays keeps all before it. -/
theorem dropEndWhile_append {p : Char → Bool} {last : Char} (h : p last = false)
    (cs ds : List Char) : dropEndWhile p (cs ++ last :: ds) = cs ++ last :: dropEndWhile p ds := by
  have hkept : (last :: cs.reverse).dropWhile p = last :: cs.reverse := by
    rw [List.dropWhile_cons, h, if_neg Bool.false_ne_true]
  rw [dropEndWhile, dropEndWhile, List.reverse_append, List.reverse_cons, List.append_assoc,
    List.singleton_append, List.dropWhile_append, hkept]
  cases hds : ds.reverse.dropWhile p with
  | nil => simp
  | cons d rest => simp

/-- Trimming leaves what begins with a character that stays, but for its end. -/
theorem trimChars_cons {first : Char} (h : isBlank first = false) (cs : List Char) :
    trimChars (first :: cs) = first :: dropEndWhile isBlank cs := by
  rw [trimChars, List.dropWhile_cons, h, if_neg Bool.false_ne_true]
  exact dropEndWhile_append h [] cs

/-- Trimming leaves a beginning between characters that are not white space. -/
theorem trimChars_append {first last : Char} (cs ds : List Char) (hfirst : isBlank first = false)
    (hlast : isBlank last = false) :
    trimChars (first :: cs ++ last :: ds) = first :: cs ++ last :: dropEndWhile isBlank ds := by
  rw [List.cons_append, trimChars_cons hfirst, dropEndWhile_append hlast, List.cons_append]

/-- Trimming leaves nothing to trim. -/
theorem trimChars_trimChars (cs : List Char) : trimChars (trimChars cs) = trimChars cs := by
  rw [trimChars, trimChars, dropWhile_dropEndWhile (List.dropWhile_idempotent isBlank cs)]
  exact List.rdropWhile_idempotent isBlank _

/-- A text that is its own trimming does not begin with white space. -/
theorem isBlank_of_head? {s : String} (htrim : trim s = s) :
    ∀ c ∈ s.toList.head?, isBlank c = false := by
  intro c hc
  have hself : s.toList.dropWhile isBlank = s.toList := by
    rw [← htrim, trim, String.toList_ofList, trimChars]
    exact dropWhile_dropEndWhile (List.dropWhile_idempotent isBlank s.toList)
  cases hs : s.toList with
  | nil => simp [hs] at hc
  | cons first rest =>
    rw [hs, List.head?_cons, Option.mem_some_iff] at hc
    rw [hs, List.dropWhile_eq_self_iff] at hself
    subst hc
    exact Bool.eq_false_iff.mpr (hself (Nat.zero_lt_succ _))

theorem trim_trim (s : String) : trim (trim s) = trim s := by
  rw [trim, trim, String.toList_ofList, trimChars_trimChars]

theorem mem_toList_of_mem_trim {s : String} {c : Char} (h : c ∈ (trim s).toList) :
    c ∈ s.toList := by
  rw [trim, String.toList_ofList, trimChars] at h
  exact (List.dropWhile_suffix _).mem ((List.rdropWhile_prefix isBlank _).mem h)

/-! ## Cutting -/

theorem cut?_append (h : sep ∉ cs) : cut? sep (cs ++ sep :: ds) = some (cs, ds) := by
  induction cs with
  | nil => rw [List.nil_append, cut?, if_pos rfl]
  | cons c cs ih =>
    obtain ⟨hne, hcs⟩ := List.ne_and_not_mem_of_not_mem_cons h
    rw [List.cons_append, cut?, if_neg (Ne.symm hne), ih hcs]
    rfl

theorem cut?_eq_some {front back : List Char} (h : cut? sep cs = some (front, back)) :
    cs = front ++ sep :: back ∧ sep ∉ front := by
  induction cs generalizing front with
  | nil => cases h
  | cons c cs ih =>
    rw [cut?] at h
    split at h
    next hc =>
      cases h
      exact ⟨by rw [hc, List.nil_append], List.not_mem_nil⟩
    next hne =>
      obtain ⟨⟨front', back'⟩, hcut, he⟩ := Option.map_eq_some_iff.mp h
      cases he
      obtain ⟨rfl, hfront⟩ := ih hcut
      exact ⟨List.cons_append, List.not_mem_cons_of_ne_of_not_mem (Ne.symm hne) hfront⟩

theorem notMem_of_cut?_eq_none (h : cut? sep cs = none) : sep ∉ cs := by
  induction cs with
  | nil => exact List.not_mem_nil
  | cons c cs ih =>
    rw [cut?] at h
    split at h
    · cases h
    next hne =>
      exact List.not_mem_cons_of_ne_of_not_mem (Ne.symm hne) (ih (Option.map_eq_none_iff.mp h))

theorem cut?_of_notMem (h : sep ∉ cs) : cut? sep cs = none := by
  induction cs with
  | nil => rfl
  | cons c cs ih =>
    obtain ⟨hne, hcs⟩ := List.ne_and_not_mem_of_not_mem_cons h
    rw [cut?, if_neg (Ne.symm hne), ih hcs]
    rfl

theorem eq_append_of_dropPrefix? {start rest : List Char} (h : dropPrefix? start cs = some rest) :
    cs = start ++ rest := by
  induction start generalizing cs with
  | nil =>
    rw [dropPrefix?] at h
    exact Option.some.inj h
  | cons c start ih =>
    cases cs with
    | nil => cases h
    | cons d cs =>
      rw [dropPrefix?] at h
      split at h
      next hc => rw [hc, List.cons_append, ih h]
      · cases h

theorem dropPrefix?_append (start cs : List Char) : dropPrefix? start (start ++ cs) = some cs := by
  induction start with
  | nil => cases cs <;> rfl
  | cons c start ih => rw [List.cons_append, dropPrefix?, if_pos rfl, ih]

theorem splitOn_of_notMem (h : sep ∉ cs) : splitOn sep cs = [cs] := by
  induction cs with
  | nil => rfl
  | cons c cs ih =>
    obtain ⟨hne, hcs⟩ := List.ne_and_not_mem_of_not_mem_cons h
    rw [splitOn, if_neg (Ne.symm hne), ih hcs]

theorem splitOn_append (h : sep ∉ cs) : splitOn sep (cs ++ sep :: ds) = cs :: splitOn sep ds := by
  induction cs with
  | nil => rw [List.nil_append, splitOn, if_pos rfl]
  | cons c cs ih =>
    obtain ⟨hne, hcs⟩ := List.ne_and_not_mem_of_not_mem_cons h
    rw [List.cons_append, splitOn, if_neg (Ne.symm hne), ih hcs]

/-- Splitting undoes joining, if there is something to join and the separator is in none of it. -/
theorem splitOn_intercalate {parts : List (List Char)} (hne : parts ≠ [])
    (h : ∀ part ∈ parts, sep ∉ part) : splitOn sep ([sep].intercalate parts) = parts := by
  induction parts with
  | nil => exact absurd rfl hne
  | cons part parts ih =>
    have hpart := h part List.mem_cons_self
    cases parts with
    | nil => simpa [List.intercalate] using splitOn_of_notMem hpart
    | cons next parts =>
      have hjoin : [sep].intercalate (part :: next :: parts) =
          part ++ sep :: [sep].intercalate (next :: parts) := by
        simp [List.intercalate, List.intersperse]
      rw [hjoin, splitOn_append hpart,
        ih (List.cons_ne_nil _ _) fun p hp => h p (List.mem_cons_of_mem _ hp)]

theorem notMem_of_mem_splitOn {piece : List Char} (h : piece ∈ splitOn sep cs) : sep ∉ piece := by
  induction cs generalizing piece with
  | nil =>
    rw [List.mem_singleton.mp h]
    exact List.not_mem_nil
  | cons c cs ih =>
    rw [splitOn] at h
    split at h
    next =>
      rcases List.mem_cons.mp h with rfl | h
      · exact List.not_mem_nil
      · exact ih h
    next hne =>
      split at h
      next hnil => exact absurd hnil (splitOn_ne_nil sep cs)
      next first rest hsplit =>
        rcases List.mem_cons.mp h with rfl | h
        · have hfirst : sep ∉ first := ih (hsplit ▸ List.mem_cons_self)
          exact List.not_mem_cons_of_ne_of_not_mem (Ne.symm hne) hfirst
        · exact ih (hsplit ▸ List.mem_cons_of_mem _ h)

/-- The pieces of a text are the only ones without separators that it is joined of. -/
theorem splitOn_eq_iff {parts : List (List Char)} (hne : parts ≠ []) : splitOn sep cs = parts ↔
    [sep].intercalate parts = cs ∧ ∀ part ∈ parts, sep ∉ part := by
  constructor
  · rintro rfl
    exact ⟨intercalate_splitOn sep cs, fun _ => notMem_of_mem_splitOn⟩
  · rintro ⟨rfl, h⟩
    exact splitOn_intercalate hne h

/-- Texts that each follow a separator are the joined texts after a separator. -/
theorem toList_join_prefixed {separator : String} (hsep : separator.toList = [sep])
    {texts : List String} (hne : texts ≠ []) :
    (String.join (texts.map (separator ++ ·))).toList =
      sep :: (separator.intercalate texts).toList := by
  induction texts with
  | nil => exact absurd rfl hne
  | cons text texts ih =>
    rw [List.map_cons, String.join_cons, String.toList_append, String.toList_append, hsep]
    cases texts with
    | nil => simp
    | cons next texts =>
      rw [ih (List.cons_ne_nil _ _), String.intercalate_cons_cons]
      simp [hsep]

end OpenApi.Text
