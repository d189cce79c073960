import OpenApi.Schema.Keyword
import OpenApi.Text

/-!
# Words of keywords

Which words name keywords and slots. No word of a keyword is that of an extension, an annotation,
`nullable` or `additionalItems`, so a member of a schema is read in one way only.
-/

namespace OpenApi.Schema

/-- Whether a word is that of an extension, an annotation, `nullable` or `additionalItems`. -/
def isReserved (word : String) : Bool :=
  Text.startsWith "x-" word || annotationWords.contains word || word == "nullable" ||
    word == "additionalItems"

theorem Keyword.word_of_ofWord? {word : String} {k : Keyword} (h : ofWord? word = some k) :
    k.word = word := by
  simpa using List.find?_some h

theorem Keyword.ofWord?_eq_some_iff {word : String} {k : Keyword} :
    ofWord? word = some k ↔ k.word = word :=
  ⟨word_of_ofWord?, fun h => h ▸ ofWord?_word k⟩

theorem Keyword.word_injective {k k' : Keyword} (h : k.word = k'.word) : k = k' :=
  Option.some.inj ((ofWord?_word k).symm.trans (h ▸ ofWord?_word k'))

theorem Keyword.mem_written (k : Keyword) : k ∈ written :=
  List.mem_of_find?_eq_some (ofWord?_word k)

theorem Keyword.nodup_written : written.Nodup := by decide

/-- The words of the keywords are pairwise different. -/
theorem Keyword.nodup_words : (written.map word).Nodup :=
  List.Pairwise.map word (fun _ _ hne hw => hne (word_injective hw)) nodup_written

theorem Slot.word_injective {s s' : Slot} (h : s.word = s'.word) : s = s' :=
  Option.some.inj ((ofWord?_word s).symm.trans (h ▸ ofWord?_word s'))

theorem Slot.mem_traversal (s : Slot) : s ∈ traversal := by
  rcases s with k | k | k <;> cases k <;> decide

theorem Slot.nodup_traversal : traversal.Nodup := by decide

/-- A word names a slot if it is the word of the slot, or the older word of definitions. -/
theorem Slot.ofWord?_eq_some_iff {word : String} {s : Slot} :
    ofWord? word = some s ↔ s.word = word ∨ word = "definitions" ∧ s = .map .defs := by
  by_cases h : word = "definitions"
  · subst h
    have : s.word ≠ "definitions" := by
      rcases s with k | k | k <;> cases k <;> decide
    simp [ofWord?, this, eq_comm]
  · refine ⟨fun hs => ?_, ?_⟩
    · rw [ofWord?, if_neg h] at hs
      exact .inl (by simpa using List.find?_some hs)
    · rintro (rfl | ⟨hw, -⟩)
      · exact ofWord?_word s
      · exact absurd hw h

theorem Slot.ofWord?_definitions : ofWord? "definitions" = some (.map .defs) := rfl

theorem Slot.ofWord?_eq_none_iff {word : String} :
    ofWord? word = none ↔ word ≠ "definitions" ∧ ∀ s : Slot, s.word ≠ word := by
  rw [Option.eq_none_iff_forall_ne_some]
  refine ⟨fun h => ⟨fun hw => h (.map .defs) (ofWord?_eq_some_iff.mpr (.inr ⟨hw, rfl⟩)),
    fun s hs => h s (ofWord?_eq_some_iff.mpr (.inl hs))⟩, fun h s hs => ?_⟩
  rcases ofWord?_eq_some_iff.mp hs with hs | ⟨hw, -⟩
  · exact h.2 s hs
  · exact h.1 hw

/-- Only `$defs` has an older word. -/
theorem Slot.word_of_ofWord? {word : String} {s : Slot} (h : ofWord? word = some s)
    (hs : s ≠ .map .defs) : s.word = word :=
  (ofWord?_eq_some_iff.mp h).resolve_right fun hd => hs hd.2

theorem Keyword.not_isReserved (k : Keyword) : isReserved k.word = false := by
  have : ∀ k ∈ written, isReserved k.word = false := by decide
  exact this k (mem_written k)

theorem isReserved_eq_false_iff {word : String} : isReserved word = false ↔
    Text.startsWith "x-" word = false ∧ annotationWords.contains word = false ∧
      word ≠ "nullable" ∧ word ≠ "additionalItems" := by
  simp only [isReserved, Bool.or_eq_false_iff, beq_eq_false_iff_ne, and_assoc]

theorem Keyword.word_not_extension (k : Keyword) : Text.startsWith "x-" k.word = false :=
  (isReserved_eq_false_iff.mp k.not_isReserved).1

theorem Keyword.word_not_in_annotations (k : Keyword) : annotationWords.contains k.word = false :=
  (isReserved_eq_false_iff.mp k.not_isReserved).2.1

theorem Keyword.word_ne_nullable (k : Keyword) : k.word ≠ "nullable" :=
  (isReserved_eq_false_iff.mp k.not_isReserved).2.2.1

theorem Keyword.word_ne_additionalItems (k : Keyword) : k.word ≠ "additionalItems" :=
  (isReserved_eq_false_iff.mp k.not_isReserved).2.2.2

theorem not_isReserved_definitions : isReserved "definitions" = false := by decide

theorem Slot.not_isReserved_of_ofWord? {word : String} {s : Slot} (h : ofWord? word = some s) :
    isReserved word = false := by
  rcases ofWord?_eq_some_iff.mp h with rfl | ⟨rfl, -⟩
  · exact Keyword.not_isReserved (.slot s)
  · exact not_isReserved_definitions

theorem Keyword.word_ne_definitions (k : Keyword) : k.word ≠ "definitions" := by
  intro h
  have hnone : ofWord? "definitions" = none := by decide
  have hk := ofWord?_word k
  rw [h, hnone] at hk
  cases hk

/-- A word that names a slot and is not the older word of definitions is that of a keyword. -/
theorem Keyword.ofWord?_of_slot {word : String} {s : Slot} (h : Slot.ofWord? word = some s)
    (hw : word ≠ "definitions") : ofWord? word = some (.slot s) := by
  rcases Slot.ofWord?_eq_some_iff.mp h with hs | ⟨he, -⟩
  · exact ofWord?_eq_some_iff.mpr hs
  · exact absurd he hw

theorem Slot.ofWord?_of_keyword {word : String} {s : Slot}
    (h : Keyword.ofWord? word = some (.slot s)) : ofWord? word = some s :=
  ofWord?_eq_some_iff.mpr (.inl (Keyword.word_of_ofWord? h))

end OpenApi.Schema
