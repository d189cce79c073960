import OpenApi.Proofs.Uri.Reading
import OpenApi.Reference

/-!
# Resolved references

* `Reference.stripFragment_resolveAgainst`: resolving a reference without fragment leaves a text
  without fragment and without white space around it, whatever it is resolved in.
-/

namespace OpenApi.Reference

open Text

theorem stripFragment_eq_self {s : String} (htrim : trim s = s) (hmark : '#' ∉ s.toList) :
    stripFragment s = s := by
  rw [stripFragment, htrim, splitFragment, cut?_of_notMem hmark]

theorem stripFragment_of_plain {s : String} (h : Plain s) : stripFragment s = s :=
  stripFragment_eq_self (trim_eq_self fun c hc => (h c hc).1) fun hc => (h _ hc).2 rfl

theorem notMem_stripFragment (s : String) : '#' ∉ (stripFragment s).toList := by
  rw [stripFragment, splitFragment.eq_def]
  split
  next document fragment hcut =>
    rw [String.toList_ofList]
    exact (cut?_eq_some hcut).2
  next hcut => exact notMem_of_cut?_eq_none hcut

/-- The document that a component reference names is written without fragment. -/
theorem notMem_of_component? {reference kind : String} {c : Component}
    (h : component? reference kind = some c) {document : String} (hd : c.document = some document) :
    '#' ∉ document.toList := by
  rw [component?.eq_def] at h
  split at h
  · cases h
  next front fragment hcut =>
    split at h
    next =>
      split at h
      next =>
        simp only at h
        split at h
        · cases h
        · cases h
          simp only at hd
          split at hd
          · cases hd
          · cases hd
            rw [String.toList_ofList]
            exact (cut?_eq_some hcut).2
      · cases h
    · cases h

theorem plainParts_of_parse? {s : String} {u : Uri} (h : Uri.parse? s = some u) :
    Uri.PlainParts u :=
  (Uri.read_read? (fun _ h => by cases h) h).1

theorem stripFragment_text {base : Option Uri} (hb : ∀ b ∈ base, Uri.PlainParts b)
    {reference : String} {u : Uri} (hmark : '#' ∉ reference.toList)
    (h : Uri.read? base reference = some u) : stripFragment u.text = u.text := by
  have hclean : '#' ∉ Uri.clean reference.toList := fun hc => hmark (Uri.clean_subset _ hc)
  obtain ⟨hparts, hu⟩ := Uri.read_read? hb h
  rcases hu hclean with hu | ⟨-, hu⟩
  · exact stripFragment_of_plain (hu.plain_text hclean)
  · obtain ⟨htrim, htext⟩ := hu.trim_text hparts fun c hc => Uri.getLast?_clean hc
    exact stripFragment_eq_self htrim htext

theorem suffix_dropRepeated (start : List Char) (fuel : Nat) (cs : List Char) :
    dropRepeated start fuel cs <:+ cs := by
  induction fuel generalizing cs with
  | zero => exact List.suffix_refl cs
  | succ fuel ih =>
    rw [dropRepeated]
    split
    next rest hrest => exact (ih rest).trans ⟨start, (eq_append_of_dropPrefix? hrest).symm⟩
    · exact List.suffix_refl cs

theorem stripFragment_resolveUnderPlaceholder {reference : String} (hmark : '#' ∉ reference.toList)
    (htrim : trim reference = reference) (hparse : Uri.parse? reference = none) (context : String) :
    stripFragment (resolveUnderPlaceholder reference context) =
      resolveUnderPlaceholder reference context := by
  simp only [resolveUnderPlaceholder]
  split
  · exact stripFragment_eq_self htrim hmark
  next url hurl =>
    obtain ⟨origin, horigin, hurl⟩ := Option.bind_eq_some_iff.mp hurl
    obtain ⟨document, hdocument, hurl⟩ := Option.bind_eq_some_iff.mp hurl
    have hparts {base : Uri} (hb : Uri.PlainParts base) : ∀ b ∈ some base, Uri.PlainParts b :=
      fun b hmem => Option.mem_some.mp hmem ▸ hb
    have hdocument :=
      (Uri.read_read? (hparts (plainParts_of_parse? horigin)) hdocument).1
    have hclean : '#' ∉ Uri.clean reference.toList := fun hc => hmark (Uri.clean_subset _ hc)
    have hurl : Uri.WellRead (Uri.clean reference.toList) url := by
      rcases (Uri.read_read? (hparts hdocument) hurl).2 hclean with hurl | ⟨halone, -⟩
      · exact hurl
      · rw [hparse] at halone
        cases halone
    have hplain : Plain (String.ofList
        (dropRepeated placeholder.toList url.text.toList.length url.text.toList)) := by
      refine (hurl.plain_text hclean).of_subset fun c hc => ?_
      rw [String.toList_ofList] at hc
      exact (suffix_dropRepeated _ _ _).mem hc
    refine stripFragment_of_plain ?_
    split
    · intro c hc
      rw [String.toList_ofList, List.mem_cons] at hc
      rcases hc with rfl | hc
      · decide
      · exact hplain c (by rwa [String.toList_ofList])
    · exact hplain

/-- Resolving a reference without fragment leaves a text without fragment and without white space
around it, whatever the document. -/
theorem stripFragment_resolveAgainst {reference : String} (h : '#' ∉ reference.toList)
    (document : Option String) :
    stripFragment (resolveAgainst reference document) = resolveAgainst reference document := by
  have hmark : '#' ∉ (trim reference).toList := fun hc => h (mem_toList_of_mem_trim hc)
  have halone : stripFragment (trim reference) = trim reference :=
    stripFragment_eq_self (trim_trim reference) hmark
  simp only [resolveAgainst]
  split
  next url hurl => exact stripFragment_text (fun _ h => by cases h) hmark hurl
  next hparse =>
    split
    · exact halone
    split
    next base hbase =>
      cases hurl : Uri.join? base (trim reference) with
      | none => exact halone
      | some url =>
        refine stripFragment_text (fun b hb => ?_) hmark hurl
        exact Option.mem_some.mp hb ▸ plainParts_of_parse? hbase
    · exact stripFragment_resolveUnderPlaceholder hmark (trim_trim reference) hparse _

end OpenApi.Reference
