import OpenApi.Proofs.Pointer

/-!
# Texts of component references

A component reference is read exactly if it is written as such, and what it is written of can be
read off it in one way only: the first `#` ends the document, and the slashes after it are where the
kind and the key begin.

* `Reference.decodeSegment_ne_empty`: a segment that is not empty stands for a key that is not;
* `Reference.componentText_iff`: what a component reference is written of is what cutting finds;
* `Reference.component?_grammar`: which texts are read and to what, and that writing is undone.
-/

namespace OpenApi

open Text

/-! ## Segments that are not empty -/

namespace Percent

theorem decodeBytes_ne_nil {cs : List Char} (h : cs ≠ []) : decodeBytes cs ≠ [] := by
  fun_cases decodeBytes cs <;> simp_all [String.utf8EncodeChar_ne_nil]

theorem decode_ne_empty {s : String} (h : s ≠ "") : decode s ≠ "" := by
  rw [decode]
  cases hs : decode? s with
  | none => exact h
  | some t =>
    rintro rfl
    have hbytes : decodeBytes s.toList ≠ [] :=
      decodeBytes_ne_nil fun hnil => h (String.toList_eq_nil_iff.mp hnil)
    rw [decode?, textOfBytes?, String.fromUTF8?] at hs
    split at hs
    next hvalid =>
      exact hbytes (congrArg (fun t => t.toByteArray.data.toList) (Option.some.inj hs))
    next => cases hs

end Percent

namespace Reference

variable {reference document kind segment : String}

theorem unescapeMark_ne_nil {mark replacement : Char} {cs : List Char} (h : cs ≠ []) :
    unescapeMark mark replacement cs ≠ [] := by
  fun_cases unescapeMark mark replacement cs <;> simp_all

theorem decodeSegment_ne_empty (h : segment ≠ "") : decodeSegment segment ≠ "" := by
  refine Percent.decode_ne_empty fun hempty => ?_
  have hnil := String.ofList_eq_empty_iff.mp hempty
  exact unescapeMark_ne_nil (unescapeMark_ne_nil (mt String.toList_eq_nil_iff.mp h)) hnil

/-! ## Texts -/

/-- The text of a component reference. -/
def componentText (document kind segment : String) : String :=
  document ++ "#/components/" ++ kind ++ "/" ++ segment

/-- What a component reference is written of, white space around it apart. -/
structure ComponentText (reference document kind segment : String) : Prop where
  text : trim reference = componentText document kind segment
  document : '#' ∉ document.toList
  kind : kind ≠ "" ∧ '/' ∉ kind.toList
  segment : segment ≠ "" ∧ '/' ∉ segment.toList

/-- The pieces after the mark of a component reference. -/
def fragmentPieces (kind segment : String) : List (List Char) :=
  [[], "components".toList, kind.toList, segment.toList]

theorem toList_componentText (document kind segment : String) :
    (componentText document kind segment).toList =
      document.toList ++ '#' :: ['/'].intercalate (fragmentPieces kind segment) := by
  simp [componentText, fragmentPieces, List.intercalate, List.intersperse]

/-- A component reference is cut into what it is written of. -/
theorem componentText_iff : ComponentText reference document kind segment ↔
    kind ≠ "" ∧ segment ≠ "" ∧ ∃ fragment,
      cut? '#' (trim reference).toList = some (document.toList, fragment) ∧
        splitOn '/' fragment = fragmentPieces kind segment := by
  have hne : fragmentPieces kind segment ≠ [] := List.cons_ne_nil _ _
  constructor
  · intro h
    refine ⟨h.kind.1, h.segment.1, _, ?_, (splitOn_eq_iff hne).mpr ⟨rfl, ?_⟩⟩
    · rw [h.text, toList_componentText]
      exact cut?_append h.document
    · simp [fragmentPieces, h.kind.2, h.segment.2]
  · rintro ⟨hkind, hsegment, fragment, hcut, hsplit⟩
    obtain ⟨htext, hdocument⟩ := cut?_eq_some hcut
    obtain ⟨rfl, hpieces⟩ := (splitOn_eq_iff hne).mp hsplit
    rw [← toList_componentText] at htext
    refine ⟨String.toList_inj.mp htext, hdocument, ⟨hkind, ?_⟩, hsegment, ?_⟩
    · exact hpieces _ (by simp [fragmentPieces])
    · exact hpieces _ (by simp [fragmentPieces])

/-- There is only one way to read what a component reference is written of. -/
theorem ComponentText.unique {document' kind' segment' : String}
    (h : ComponentText reference document kind segment)
    (h' : ComponentText reference document' kind' segment') :
    document = document' ∧ kind = kind' ∧ segment = segment' := by
  obtain ⟨-, -, fragment, hcut, hsplit⟩ := componentText_iff.mp h
  obtain ⟨-, -, fragment', hcut', hsplit'⟩ := componentText_iff.mp h'
  obtain ⟨hdocument, rfl⟩ := Prod.mk.inj (Option.some.inj (hcut.symm.trans hcut'))
  have hpieces := hsplit.symm.trans hsplit'
  simp only [fragmentPieces, List.cons.injEq, and_true, true_and] at hpieces
  exact ⟨String.toList_inj.mp hdocument, String.toList_inj.mp hpieces.1,
    String.toList_inj.mp hpieces.2⟩

theorem component?_eq_some_iff {c : Component} : component? reference kind = some c ↔
    ∃ document segment, ComponentText reference document kind segment ∧
      c = { document := if document = "" then none else some document,
            key := decodeSegment segment } := by
  simp only [componentText_iff]
  rw [component?]
  constructor
  · intro h
    split at h
    next => cases h
    next front fragment hcut =>
      split at h
      next components found key hsplit =>
        split at h
        next hread =>
          obtain ⟨hcomponents, rfl, hfound, hkey⟩ := hread
          simp only at h
          split at h
          next => cases h
          next =>
            refine ⟨String.ofList front, String.ofList key, ⟨?_, ?_, fragment, ?_, ?_⟩, ?_⟩
            · simpa using hfound
            · simpa using hkey
            · rw [hcut, String.toList_ofList]
            · rw [hsplit, fragmentPieces, ← hcomponents]
              simp only [String.toList_ofList]
            · rw [← Option.some.inj h]
              simp only [String.ofList_eq_empty_iff, List.isEmpty_iff]
        next => cases h
      next => cases h
  · rintro ⟨document, segment, ⟨hkind, hsegment, fragment, hcut, hsplit⟩, rfl⟩
    have hkey : (decodeSegment segment).isEmpty = false := by
      simpa using decodeSegment_ne_empty hsegment
    rw [hcut]
    simp only [hsplit, fragmentPieces, String.ofList_toList, hkey]
    simp [hkind, hsegment]

/-! ## Writing -/

/-- A written component reference has no white space around it if its document has none. -/
theorem trim_componentText {key : String} (htrim : trim document = document) :
    trim (componentText document kind (Parameter.escapeUnreserved (escapeSegment key))) =
      componentText document kind (Parameter.escapeUnreserved (escapeSegment key)) := by
  refine trim_eq_self_of_ends (fun c hc => ?_) (fun c hc => ?_)
  · rw [toList_componentText, List.head?_append] at hc
    cases hfirst : document.toList.head? with
    | none =>
      rw [hfirst, Option.none_or, List.head?_cons, Option.mem_some_iff] at hc
      subst hc
      decide
    | some first =>
      rw [hfirst, Option.some_or] at hc
      exact isBlank_of_head? htrim c (hfirst ▸ hc)
  · -- The last character is one of the escaped key, or the slash before it.
    have hend : ∃ front, (componentText document kind
        (Parameter.escapeUnreserved (escapeSegment key))).toList =
          front ++ '/' :: (Parameter.escapeUnreserved (escapeSegment key)).toList :=
      ⟨(document ++ "#/components/" ++ kind).toList, by simp [componentText]⟩
    obtain ⟨front, hend⟩ := hend
    rw [hend, List.getLast?_append_of_ne_nil _ (List.cons_ne_nil _ _)] at hc
    rcases List.mem_cons.mp (List.mem_of_getLast? hc) with rfl | hc
    · decide
    rcases Parameter.mem_escapeUnreserved hc with hc | rfl
    · exact Parameter.isBlank_of_isUnreserved hc
    · decide

/-- The key of a component is read off its escaped segment. -/
theorem component?_componentText {key : String} (hdocument : '#' ∉ document.toList)
    (htrim : trim document = document) (hkind : kind ≠ "" ∧ '/' ∉ kind.toList) (hkey : key ≠ "") :
    component? (componentText document kind (Parameter.escapeUnreserved (escapeSegment key)))
      kind = some { document := if document = "" then none else some document, key } := by
  have hsegment : Parameter.escapeUnreserved (escapeSegment key) ≠ "" := by
    intro hempty
    have hdecode := decodeSegment_escape key
    rw [hempty] at hdecode
    exact hkey (hdecode.symm.trans rfl)
  refine component?_eq_some_iff.mpr ⟨document, _, ⟨trim_componentText htrim, hdocument, hkind,
    hsegment, slash_notMem_escape key⟩, ?_⟩
  rw [decodeSegment_escape]

/-- A text is read as a component reference of a kind exactly if it is written as one, and what it
is written of is then settled. Writing a document, a kind and a key is undone by reading. -/
theorem component?_grammar :
    (∀ reference kind c, component? reference kind = some c ↔
      ∃ document segment, ComponentText reference document kind segment ∧
        c = { document := if document = "" then none else some document,
              key := decodeSegment segment }) ∧
    (∀ reference document kind segment document' kind' segment',
      ComponentText reference document kind segment →
      ComponentText reference document' kind' segment' →
      document = document' ∧ kind = kind' ∧ segment = segment') ∧
    ∀ document kind key, '#' ∉ document.toList → trim document = document → kind ≠ "" →
      '/' ∉ kind.toList → key ≠ "" →
      component? (document ++ "#/components/" ++ kind ++ "/" ++
          Parameter.escapeUnreserved (escapeSegment key)) kind =
        some { document := if document = "" then none else some document, key } := by
  exact ⟨fun _ _ _ => component?_eq_some_iff, fun _ _ _ _ _ _ _ => ComponentText.unique,
    fun _ _ _ hdocument htrim hkind hslash hkey =>
      component?_componentText hdocument htrim ⟨hkind, hslash⟩ hkey⟩

theorem component?_grammar_marks :
    ComponentText "\t#/components/a#b/\n~\u2003" "" "a#b" "\n~" ∧
    (∀ document kind segment, ComponentText "\t#/components/a#b/\n~\u2003" document kind segment →
      document = "" ∧ kind = "a#b" ∧ segment = "\n~") ∧
    component? "\t#/components/a#b/\n~\u2003" "a#b" = some { document := none, key := "\n~" } ∧
    ('#' ∉ "x y.yaml".toList ∧ trim "x y.yaml" = "x y.yaml" ∧ "a#b" ≠ "" ∧
      '/' ∉ "a#b".toList ∧ "~1/%41 \u00e9#" ≠ "") ∧
    component? "x y.yaml#/components/a#b/~01~1%2541%20%C3%A9%23" "a#b" =
      some { document := some "x y.yaml", key := "~1/%41 \u00e9#" } := by
  obtain ⟨hread, hunique, hwritten⟩ := component?_grammar
  have htext : ComponentText "\t#/components/a#b/\n~\u2003" "" "a#b" "\n~" := by
    refine ⟨?_, ?_, ?_, ?_⟩ <;> decide +kernel
  have hplain : '#' ∉ "x y.yaml".toList ∧ trim "x y.yaml" = "x y.yaml" ∧ "a#b" ≠ "" ∧
      '/' ∉ "a#b".toList ∧ "~1/%41 \u00e9#" ≠ "" := by decide +kernel
  obtain ⟨hdocument, htrim, hkind, hslash, hkey⟩ := hplain
  refine ⟨htext, fun document kind segment h => ?_, ?_, ⟨hdocument, htrim, hkind, hslash, hkey⟩, ?_⟩
  · exact hunique _ _ _ _ _ _ _ h htext
  · have hsegment : decodeSegment "\n~" = "\n~" := by decide +kernel
    refine (hread _ _ _).mpr ⟨"", "\n~", htext, ?_⟩
    rw [hsegment, if_pos rfl]
  · have hwritten := hwritten "x y.yaml" "a#b" "~1/%41 \u00e9#" hdocument htrim hkind hslash hkey
    have htext : "x y.yaml" ++ "#/components/" ++ "a#b" ++ "/" ++
        Parameter.escapeUnreserved (escapeSegment "~1/%41 \u00e9#") =
          "x y.yaml#/components/a#b/~01~1%2541%20%C3%A9%23" := by decide +kernel
    rw [htext, if_neg (by decide)] at hwritten
    exact hwritten

end Reference

end OpenApi
