import OpenApi.Proofs.Pointer
import OpenApi.Proofs.Schema.Extension
import OpenApi.Proofs.Schema.Lineage

/-!
# Resources by their canonical URIs

The canonical URI of a resource is its `$id`, resolved in the canonical URI of the resource around
it and so on up to the root. The search for a resource resolves an `$id` in the `$id` around it as
that is written, which comes to the same where one step is enough: where the `$id` around a relative
one is absolute.

* `Uri.readsAlone`: a URL with its scheme and slashes means the same in every document;
* `Graph.canonical?`: the canonical URI of the resource around a node;
* `Graph.Forest.documentOf_eq`: an `$id` that is resolved in one step names its canonical URI;
* `Graph.StandsFor.resource?_eq`: the first resource that a reference matches is the one whose
  canonical URI it stands for;
* `Graph.resolve_canonical`: such a reference leads to the resource.
-/

namespace OpenApi

open Text

/-! ## Reading references -/

namespace Uri

theorem afterScheme?_fragment (base : Uri) (f : Option String) (scheme : String)
    (cs : List Char) :
    afterScheme? (some { base with fragment := f }) scheme cs =
      afterScheme? (some base) scheme cs := by
  simp only [afterScheme?, Option.filter_some]
  by_cases hfile : (base.scheme == "file") = true <;>
    by_cases hscheme : (base.scheme == scheme) = true <;>
    simp only [hfile, hscheme, Bool.false_eq_true, ↓reduceIte] <;> rfl

/-- The fragment of a base does not count. -/
theorem join?_fragment (base : Uri) (f : Option String) (reference : String) :
    join? { base with fragment := f } reference = join? base reference := by
  rw [join?, read?, join?, read?]
  cases hs : scheme? (clean reference.toList) with
  | none => rfl
  | some e => exact afterScheme?_fragment base f e.1 e.2

/-- The empty reference stands for its base. -/
theorem eq_of_join?_empty {base u : Uri} (h : join? base "" = some u) :
    u = { base with fragment := none } := by
  have hempty : scheme? (clean "".toList) = none := rfl
  rw [join?, read?, hempty] at h
  obtain ⟨scheme, authority, path, query, fragment⟩ := base
  cases path with
  | bare => cases h
  | segments names =>
    have hclean : clean "".toList = [] := rfl
    simp only [hclean, file?, file?.relativeToFile, relative?, ite_self, Option.some.injEq] at h
    exact h.symm

/-- A text that stands for one URL, by itself and in every document. -/
structure ReadsAlone (text : String) (u : Uri) : Prop where
  parse? : Uri.parse? text = some u
  join? : ∀ base, Uri.join? base text = some u

/-- With its scheme, and with its slashes if they could be left out, a URL is read alone. -/
theorem readsAlone {text scheme : String} {cs : List Char} {u : Uri}
    (hs : scheme? (clean text.toList) = some (scheme, cs)) (hfile : scheme ≠ "file")
    (hslashes : isSpecial scheme = true → 2 ≤ (cs.takeWhile (isSlash true)).length)
    (hu : Uri.parse? text = some u) : ReadsAlone text u where
  parse? := hu
  join? base := by
    rw [← hu, Uri.join?, Uri.parse?, read?, read?, hs]
    simp only [afterScheme?, beq_iff_eq, hfile, ↓reduceIte]
    split
    next hspecial =>
      have hlt : ¬ (cs.takeWhile (isSlash true)).length < 2 :=
        Nat.not_lt_of_le (hslashes hspecial)
      simp only [hlt, ↓reduceIte]
      cases (some base).filter (·.scheme == scheme) <;> rfl
    next => rfl

end Uri

namespace Reference

variable {reference document : String} {u base : Uri}

theorem splitFragment_of_notMem (h : '#' ∉ reference.toList) :
    splitFragment reference = (reference, none) := by
  rw [splitFragment, cut?_of_notMem h]

theorem stripFragment_of_notMem (h : '#' ∉ reference.toList) :
    stripFragment reference = trim reference := by
  rw [stripFragment, splitFragment_of_notMem fun hc => h (mem_toList_of_mem_trim hc)]

theorem resolveAgainst_of_parse? (h : Uri.parse? (trim reference) = some u)
    (document : Option String) : resolveAgainst reference document = u.text := by
  rw [resolveAgainst, h]

theorem resolveAgainst_of_join? (h : Uri.parse? (trim reference) = none)
    (hbase : Uri.parse? (trim document) = some base)
    (hu : Uri.join? base (trim reference) = some u) :
    resolveAgainst reference (some document) = u.text := by
  have hne : (trim document).isEmpty = false := by
    cases he : (trim document).isEmpty with
    | false => rfl
    | true =>
      rw [String.isEmpty_iff.mp he] at hbase
      cases hbase
  simp only [resolveAgainst, h, Option.getD_some, hne, Bool.false_eq_true, ↓reduceIte, hbase, hu,
    Option.map_some]

end Reference

/-! ## Searching -/

/-- The only element with a property is the first. -/
theorem find?_eq_of_unique {α : Type} {p : α → Bool} {l : List α} {a : α} (ha : a ∈ l)
    (hp : p a = true) (h : ∀ b, p b = true → b = a) : l.find? p = some a := by
  cases hb : l.find? p with
  | none => exact absurd hp (Bool.not_eq_true _ ▸ List.find?_eq_none.mp hb a ha)
  | some b => rw [h b (List.find?_some hb)]

namespace Schema

open Json Reference

/-! ## Canonical URIs -/

/-- The document part of an `$id`. -/
def documentPart (id : String) : String := trim (stripFragment id)

/-- The URI of an `$id` in the resource around it, or by itself where there is none. -/
def resolvedId? (around : Option Uri) (id : String) : Option Uri :=
  match around with
  | some base => Uri.join? base (documentPart id)
  | none => Uri.parse? (documentPart id)

/-- An `$id` that is an absolute URL, whose fragment may be cut off before it is read or after. -/
structure AbsoluteId (id : String) (u : Uri) : Prop where
  alone : Uri.ReadsAlone (documentPart id) u
  fragment : u.fragment = none
  whole : ∃ fragment, Uri.parse? (trim id) = some { u with fragment }

theorem AbsoluteId.resolvedId? {id : String} {u : Uri} (h : AbsoluteId id u) (around : Option Uri) :
    resolvedId? around id = some u := by
  cases around with
  | none => exact h.alone.parse?
  | some base => exact h.alone.join? base

namespace Graph

variable {g : Graph} {n p s t : NodeId} {id : String} {u base : Uri}

theorem opensResource_of_resourceId? (h : g.resourceId? n = some id) :
    g.opensResource n = true := by
  rw [opensResource, h]
  rfl

theorem not_opensResource_of_resourceId? (h : g.resourceId? n = none) :
    g.opensResource n = false := by
  rw [opensResource, h]
  rfl

theorem lt_size_of_opensResource (h : g.opensResource n = true) : n < g.size := by
  obtain ⟨id, hid⟩ := Option.isSome_iff_exists.mp h
  obtain ⟨node, hnode, -⟩ := Option.bind_eq_some_iff.mp hid
  exact lt_size_of_node? hnode

/-- The canonical URI of the resource around a node: from the top down, every `$id` is resolved in
the URI of the one before. -/
def canonical? (g : Graph) (n : NodeId) : Option Uri :=
  (g.owners n).foldl
    (fun around o => match g.resourceId? o with
      | some id => resolvedId? around id
      | none => around)
    none

theorem canonical?_of_top (hn : g.parent? n = none) (hid : g.resourceId? n = some id) :
    g.canonical? n = resolvedId? none id := by
  simp only [canonical?, owners_of_top hn, List.foldl_cons, List.foldl_nil, hid]

theorem Forest.canonical?_of_below (hf : g.Forest) (hn : g.parent? n = some p)
    (hid : g.resourceId? n = some id) : g.canonical? n = resolvedId? (g.canonical? p) id := by
  rw [canonical?, hf.owners_of_below hn, if_pos (opensResource_of_resourceId? hid),
    List.foldl_append]
  simp only [List.foldl_cons, List.foldl_nil, hid]
  rfl

theorem Forest.canonical?_of_closed (hf : g.Forest) (hn : g.parent? n = some p)
    (hid : g.resourceId? n = none) : g.canonical? n = g.canonical? p := by
  rw [canonical?, hf.owners_of_below hn, not_opensResource_of_resourceId? hid,
    if_neg Bool.false_ne_true, List.append_nil]
  rfl

/-- A node has the canonical URI of the node that opens its resource. -/
theorem Forest.canonical?_resourceRoot (hf : g.Forest) (n : NodeId) :
    g.canonical? (g.resourceRoot n) = g.canonical? n := by
  induction n using hf.upward with
  | top n hn => rw [hf.resourceRoot_of_opens (.inr hn)]
  | below n p hn ih =>
    cases hid : g.resourceId? n with
    | some id => rw [hf.resourceRoot_of_opens (.inl (opensResource_of_resourceId? hid))]
    | none =>
      rw [hf.resourceRoot_of_below hn (not_opensResource_of_resourceId? hid), ih,
        hf.canonical?_of_closed hn hid]

theorem Forest.canonical?_of_absolute (hf : g.Forest) (hid : g.resourceId? n = some id)
    (h : AbsoluteId id u) : g.canonical? n = some u := by
  cases hn : g.parent? n with
  | none => rw [canonical?_of_top hn hid, h.resolvedId?]
  | some p => rw [hf.canonical?_of_below hn hid, h.resolvedId?]

/-- The text of the canonical URI of the resource around a node. -/
def canonicalText? (g : Graph) (n : NodeId) : Option String :=
  (g.canonical? n).map fun u => stripFragment u.text

/-- Every resource has a canonical URI, and no two have the same. -/
structure Canonical (g : Graph) : Prop where
  isSome : ∀ s, g.opensResource s = true → (g.canonical? s).isSome = true
  injective : ∀ s s', g.opensResource s = true → g.opensResource s' = true →
    g.canonicalText? s = g.canonicalText? s' → s = s'

instance (g : Graph) : Decidable g.Canonical :=
  -- The search for an instance of the whole conjunction is too long.
  have : Decidable (∀ s < g.size, ∀ s' < g.size, g.opensResource s = true →
      g.opensResource s' = true → g.canonicalText? s = g.canonicalText? s' → s = s') :=
    inferInstance
  decidable_of_iff
    ((∀ s < g.size, g.opensResource s = true → (g.canonical? s).isSome = true) ∧
      ∀ s < g.size, ∀ s' < g.size, g.opensResource s = true → g.opensResource s' = true →
        g.canonicalText? s = g.canonicalText? s' → s = s')
    { mp := fun h =>
        { isSome := fun s hs => h.1 s (lt_size_of_opensResource hs) hs
          injective := fun s s' hs hs' =>
            h.2 s (lt_size_of_opensResource hs) s' (lt_size_of_opensResource hs') hs hs' }
      mpr := fun h => ⟨fun s _ => h.isSome s, fun s _ s' _ => h.injective s s'⟩ }

/-! ## One step of resolution -/

/-- An `$id` that is resolved in one step: it is absolute, or it stands in a resource whose `$id`
is. -/
inductive IdInOneStep (g : Graph) (s : NodeId) (id : String) : Prop
  | absolute {u : Uri} : AbsoluteId id u → IdInOneStep g s id
  | relative {p : NodeId} {around : String} {base : Uri} : Uri.parse? (documentPart id) = none →
    g.parent? s = some p → g.resourceId? (g.resourceRoot p) = some around →
    AbsoluteId around base → IdInOneStep g s id

/-- Every `$id` is resolved in one step. -/
def IdsInOneStep (g : Graph) : Prop := ∀ s id, g.resourceId? s = some id → g.IdInOneStep s id

/-- The document that an `$id` names is the canonical URI of its resource. -/
theorem Forest.documentOf_eq (hf : g.Forest) (hid : g.resourceId? s = some id)
    (h : g.IdInOneStep s id) (hu : g.canonical? s = some u) :
    g.documentOf s id = stripFragment u.text := by
  cases h with
  | absolute h =>
    rw [hf.canonical?_of_absolute hid h] at hu
    cases hu
    rw [documentOf, resolveAgainst_of_parse? h.alone.parse?]
  | @relative p around base hrelative hp haround h =>
    obtain ⟨fragment, hwhole⟩ := h.whole
    have hbase : g.canonical? p = some base := by
      rw [← hf.canonical?_resourceRoot, hf.canonical?_of_absolute haround h]
    rw [hf.canonical?_of_below hp hid, hbase] at hu
    have hjoin : Uri.join? { base with fragment } (documentPart id) = some u :=
      (Uri.join?_fragment base fragment _).trans hu
    simp only [documentOf, hp, Option.bind_some, haround]
    rw [resolveAgainst_of_join? hrelative hwhole hjoin]

/-! ## References to a resource -/

/-- In the resource around a node, a reference without fragment stands for a URI, which is the
canonical URI of a resource. -/
structure StandsFor (g : Graph) (n : NodeId) (reference : String) (u : Uri) (t : NodeId) :
    Prop where
  noFragment : '#' ∉ reference.toList
  resolved : ∃ base, g.canonical? n = some base ∧ Uri.join? base (trim reference) = some u
  opens : g.opensResource t = true
  canonical : g.canonicalText? t = some (stripFragment u.text)

/-- A reference to a resource that is resolved in one step: it is absolute, or it stands in a
resource whose `$id` is and no other resource has it as `$id`. -/
inductive RefersInOneStep (g : Graph) (n : NodeId) (reference : String) (t : NodeId) : Prop
  | absolute {u : Uri} : Uri.ReadsAlone (trim reference) u → RefersInOneStep g n reference t
  | relative {around : String} {base : Uri} : Uri.parse? (trim reference) = none →
    g.resourceId? (g.resourceRoot n) = some around → AbsoluteId around base →
    (∀ s id, g.resourceId? s = some id → stripFragment id = trim reference → s = t) →
    RefersInOneStep g n reference t

section

variable {r : String}

/-- The document that a reference names is the URI that it stands for. -/
theorem StandsFor.wanted_eq (h : g.StandsFor n r u t) (hf : g.Forest)
    (hr : g.RefersInOneStep n r t) :
    resolveAgainst (trim r) (g.resourceId? (g.resourceRoot n)) = u.text := by
  obtain ⟨base, hbase, hu⟩ := h.resolved
  cases hr with
  | absolute halone =>
    rw [halone.join? base] at hu
    cases hu
    exact resolveAgainst_of_parse? (by rw [trim_trim, halone.parse?]) _
  | @relative around base' hrelative haround habsolute _ =>
    obtain ⟨fragment, hwhole⟩ := habsolute.whole
    rw [← hf.canonical?_resourceRoot, hf.canonical?_of_absolute haround habsolute] at hbase
    cases hbase
    rw [haround]
    refine resolveAgainst_of_join? (by rw [trim_trim, hrelative]) hwhole ?_
    rw [trim_trim, Uri.join?_fragment, hu]

/-- Only the resource meant has the reference as its `$id`. -/
theorem StandsFor.eq_of_text (h : g.StandsFor n r u t) (hf : g.Forest) (hc : g.Canonical)
    (hs : g.IdsInOneStep) (hr : g.RefersInOneStep n r t) (hid : g.resourceId? s = some id)
    (htext : stripFragment id = trim r) : s = t := by
  obtain ⟨base, -, hu⟩ := h.resolved
  cases hr with
  | relative _ _ _ honly => exact honly s id hid htext
  | @absolute w halone =>
    have hdocument : documentPart id = trim r := by rw [documentPart, htext, trim_trim]
    cases hs s id hid with
    | relative hrelative =>
      rw [hdocument, halone.parse?] at hrelative
      cases hrelative
    | @absolute v habsolute =>
      have hvu : some v = some u := by rw [← habsolute.alone.join? base, hdocument, hu]
      refine hc.injective s t (opensResource_of_resourceId? hid) h.opens ?_
      rw [h.canonical, canonicalText?, hf.canonical?_of_absolute hid habsolute, hvu]
      rfl

/-- An `$id` names the document that the reference stands for in the resource meant alone. -/
theorem StandsFor.documentOf_eq_iff (h : g.StandsFor n r u t) (hf : g.Forest) (hc : g.Canonical)
    (hs : g.IdsInOneStep) (hid : g.resourceId? s = some id) :
    g.documentOf s id = stripFragment u.text ↔ s = t := by
  have hopen := opensResource_of_resourceId? hid
  obtain ⟨v, hv⟩ := Option.isSome_iff_exists.mp (hc.isSome s hopen)
  have htext : g.canonicalText? s = some (g.documentOf s id) := by
    rw [canonicalText?, hv, hf.documentOf_eq hid (hs s id hid) hv]
    rfl
  constructor
  · intro hdocument
    refine hc.injective s t hopen h.opens ?_
    rw [htext, hdocument, h.canonical]
  · rintro rfl
    exact Option.some.inj (htext.symm.trans h.canonical)

/-- The first resource that the reference matches is the resource meant. -/
theorem StandsFor.resource?_eq (h : g.StandsFor n r u t) (hf : g.Forest) (hc : g.Canonical)
    (hs : g.IdsInOneStep) (hr : g.RefersInOneStep n r t) :
    g.resource? (trim r) (some (g.resourceRoot n)) = some t := by
  have hdocument : stripFragment (trim r) = trim r := by
    rw [stripFragment_of_notMem fun hc => h.noFragment (mem_toList_of_mem_trim hc), trim_trim]
  rw [resource?, Option.bind_some, h.wanted_eq hf hr, hdocument]
  refine find?_eq_of_unique ?_ ?_ fun s hmatch => ?_
  · exact List.mem_range.mpr (lt_size_of_opensResource h.opens)
  · obtain ⟨id, hid⟩ := Option.isSome_iff_exists.mp h.opens
    simp only [hid, (h.documentOf_eq_iff hf hc hs hid).mpr rfl, BEq.rfl, Bool.or_true]
  · cases hid : g.resourceId? s with
    | none => simp only [hid, Bool.false_eq_true] at hmatch
    | some id =>
      simp only [hid, Bool.or_eq_true, beq_iff_eq] at hmatch
      rcases hmatch with htext | hdocument
      · exact h.eq_of_text hf hc hs hr hid htext
      · exact (h.documentOf_eq_iff hf hc hs hid).mp hdocument

/-- The empty reference stands for the resource around it. -/
theorem StandsFor.eq_of_isEmpty (h : g.StandsFor n r u t) (hf : g.Forest) (hc : g.Canonical)
    (hr : g.RefersInOneStep n r t) (hempty : (trim r).isEmpty = true) : g.resourceRoot n = t := by
  obtain ⟨base, hbase, hu⟩ := h.resolved
  rw [String.isEmpty_iff] at hempty
  cases hr with
  | absolute halone =>
    have hnone : Uri.parse? "" = none := rfl
    rw [hempty] at halone
    cases hnone.symm.trans halone.parse?
  | @relative around base' _ haround habsolute _ =>
    have hroot : g.canonical? (g.resourceRoot n) = some base' :=
      hf.canonical?_of_absolute haround habsolute
    obtain rfl : base' = base := by
      rw [hf.canonical?_resourceRoot, hbase] at hroot
      exact (Option.some.inj hroot).symm
    obtain rfl : u = base' := by
      rw [hempty] at hu
      rw [Uri.eq_of_join?_empty hu, ← habsolute.fragment]
    refine hc.injective _ t (opensResource_of_resourceId? haround) h.opens ?_
    rw [h.canonical, canonicalText?, hroot]
    rfl

/-- A reference that stands for the canonical URI of a resource leads to the resource, at any depth
of `$id`s that are resolved in one step each. -/
theorem resolve_canonical (hb : g.Built) (hc : g.Canonical) (hs : g.IdsInOneStep)
    (h : g.StandsFor n r u t) (hr : g.RefersInOneStep n r t) : g.resolve (some n) r = some t := by
  have hf := hb.rooted.forest
  have hsplit : splitFragment (trim r) = (trim r, none) :=
    splitFragment_of_notMem fun hc => h.noFragment (mem_toList_of_mem_trim hc)
  rw [resolve, locate, hsplit]
  cases hempty : (trim r).isEmpty with
  | true =>
    simp only [hempty, ↓reduceIte, Option.map_some, Option.some_or, Option.bind_some,
      Option.getD_none, h.eq_of_isEmpty hf hc hr hempty]
    rfl
  | false =>
    simp only [hempty, Bool.false_eq_true, ↓reduceIte, Option.map_some, Option.some_or,
      h.resource?_eq hf hc hs hr, Option.bind_some, Option.getD_none]
    rfl

end

/-! ## Nested resources -/

/-- The URL of a path at a host. -/
def httpUri (host : String) (names : List String) : Uri where
  scheme := "http"
  authority := some { host }
  path := .segments names
  query := none
  fragment := none

theorem absoluteId_httpUri {id host : String} {names : List String} {cs : List Char}
    (hdocument : documentPart id = id) (htrim : trim id = id)
    (hs : Uri.scheme? (Uri.clean id.toList) = some ("http", cs))
    (hslashes : 2 ≤ (cs.takeWhile (Uri.isSlash true)).length)
    (hu : Uri.parse? id = some (httpUri host names)) : AbsoluteId id (httpUri host names) where
  alone := by
    rw [hdocument]
    exact Uri.readsAlone hs (by decide) (fun _ => hslashes) hu
  fragment := rfl
  whole := ⟨none, by rw [htrim, hu]; rfl⟩

theorem absoluteId_outer : AbsoluteId "http://a/r" (httpUri "a" ["r"]) := by
  have hs : Uri.scheme? (Uri.clean "http://a/r".toList) = some ("http", "//a/r".toList) := by
    decide
  exact absoluteId_httpUri (by decide) (by decide) hs (by decide) (by decide +kernel)

theorem absoluteId_middle : AbsoluteId "http://b/m" (httpUri "b" ["m"]) := by
  have hs : Uri.scheme? (Uri.clean "http://b/m".toList) = some ("http", "//b/m".toList) := by
    decide
  exact absoluteId_httpUri (by decide) (by decide) hs (by decide) (by decide +kernel)

/-- Three resources, one in the other: with an absolute `$id`, the given one, and a relative one. -/
def nested (middle : String) : Value :=
  .object [("$id", .string "http://a/r"), ("$defs", .object [("m", .object [
    ("$id", .string middle), ("$defs", .object [("x", .object [("$id", .string "y")])])])])]

/-- The graph of three nested resources, the innermost with number 0. -/
def nestedGraph (middle : String) : Graph := (insert {} (nested middle)).2

theorem built_nestedGraph (middle : String) : (nestedGraph middle).Built := by
  have hinsert : insert {} (nested middle) = (.ok 2, nestedGraph middle) := rfl
  exact .insert .empty hinsert

theorem resourceId?_nestedGraph (h : (nestedGraph "http://b/m").resourceId? s = some id) :
    s = 0 ∧ id = "y" ∨ s = 1 ∧ id = "http://b/m" ∨ s = 2 ∧ id = "http://a/r" := by
  have hlt : s < 3 := lt_size_of_opensResource (opensResource_of_resourceId? h)
  match s, hlt with
  | 0, _ => exact .inl ⟨rfl, (Option.some.inj h).symm⟩
  | 1, _ => exact .inr (.inl ⟨rfl, (Option.some.inj h).symm⟩)
  | 2, _ => exact .inr (.inr ⟨rfl, (Option.some.inj h).symm⟩)

theorem resolve_canonical_nested :
    (nestedGraph "http://b/m").Built ∧ (nestedGraph "http://b/m").Canonical ∧
      (nestedGraph "http://b/m").resolve (some 2) "//b/y" = some 0 := by
  have hb := built_nestedGraph "http://b/m"
  have hc : (nestedGraph "http://b/m").Canonical := by decide +kernel
  have hs : (nestedGraph "http://b/m").IdsInOneStep := by
    intro s id hid
    rcases resourceId?_nestedGraph hid with ⟨rfl, rfl⟩ | ⟨rfl, rfl⟩ | ⟨rfl, rfl⟩
    · exact .relative (p := 1) (by decide +kernel) rfl rfl absoluteId_middle
    · exact .absolute absoluteId_middle
    · exact .absolute absoluteId_outer
  have hstands : (nestedGraph "http://b/m").StandsFor 2 "//b/y" (httpUri "b" ["y"]) 0 :=
    { noFragment := by decide
      resolved := ⟨httpUri "a" ["r"], by decide +kernel, by decide +kernel⟩
      opens := rfl
      canonical := by decide +kernel }
  have hrefers : (nestedGraph "http://b/m").RefersInOneStep 2 "//b/y" 0 := by
    refine .relative (by decide +kernel) rfl absoluteId_outer fun s id hid htext => ?_
    rcases resourceId?_nestedGraph hid with ⟨rfl, rfl⟩ | ⟨rfl, rfl⟩ | ⟨rfl, rfl⟩
    · rfl
    · exact absurd htext (by decide)
    · exact absurd htext (by decide)
  exact ⟨hb, hc, resolve_canonical hb hc hs hstands hrefers⟩

/-- A resource inside one with a relative `$id` is not always found by its canonical URI. -/
theorem not_resolve_canonical : ¬ ∀ (v : Value) (g : Graph) (root n t : NodeId) (id r : String)
    (base u : Uri), ofValue v = .ok g → g.root? = some root → g.resourceId? root = some id →
      AbsoluteId id base → g.Canonical → g.StandsFor n r u t → g.resolve (some n) r = some t := by
  intro hall
  have hloaded : ofValue (nested "s/m") = .ok (nestedGraph "s/m") := rfl
  have hc : (nestedGraph "s/m").Canonical := by decide +kernel
  have hstands : (nestedGraph "s/m").StandsFor 2 "s/y" (httpUri "a" ["s", "y"]) 0 :=
    { noFragment := by decide
      resolved := ⟨httpUri "a" ["r"], by decide +kernel, by decide +kernel⟩
      opens := rfl
      canonical := by decide +kernel }
  have hnone : (nestedGraph "s/m").resolve (some 2) "s/y" = none := by decide +kernel
  have hfound := hall (nested "s/m") _ 2 2 0 "http://a/r" "s/y" _ _ hloaded rfl rfl
    absoluteId_outer hc hstands
  cases hnone.symm.trans hfound

end Graph

end Schema

end OpenApi
