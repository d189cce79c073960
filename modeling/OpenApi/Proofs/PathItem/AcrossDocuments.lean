import Mathlib.Data.List.Perm.Subperm
import OpenApi.Proofs.PathItem.Chain
import OpenApi.Proofs.Registry

/-!
# Chains through registered documents

A chain of path item references may leave a document for registered ones and go on among them. A
document has several names there, while a mark holds one text. Marks are exact nevertheless: what a
mark leads to is decided by the mark (`Denotes.unique`, `denotes_of_next?`), so that a chain that
comes to a mark twice goes round for ever.

* `resolve_registered`: a path item is resolved exactly as by following its references without
  marks, however long the chain is and however often it crosses documents.
-/

namespace OpenApi

open Reference (stripFragment sameDocument)

/-- A registry as a lookup of path items of other documents. -/
def Registry.lookup (r : Registry) : PathItem.Lookup Id :=
  fun document key => pure (r.pathItem? document key)

@[simp] theorem Document.origin_self (d : Document) : d.origin.self = d.base? := rfl

@[simp] theorem Document.origin_components (d : Document) : d.origin.components = d.components :=
  rfl

/-- The path items among the components of a document. -/
def Document.located (d : Document) : List PathItem.Located :=
  d.components.pathItems.values.map fun item => { item, origin := d.origin }

namespace PathItem

/-- A document and the registered ones. -/
def documents (r : Registry) (d : Document) : List Document := d :: r.entries.map (·.document)

/-- The path items that references in a document and in registered ones may lead to. -/
def targets (r : Registry) (d : Document) : List Located := (documents r d).flatMap Document.located

/-- The names of documents that are compared on the way from a path item of a document: the bases of
the documents, and what references name, resolved where they stand. -/
def comparedNames (r : Registry) (d : Document) (item : PathItem) : List String :=
  (documents r d).filterMap Document.base? ++
    ({ item, origin := d.origin } :: targets r d).filterMap fun here =>
      here.target?.bind (·.document)

/-- What a mark of a name and a key stands for: a path item of the document itself, or of a
registered one. -/
def Denotes (r : Registry) (d : Document) (name key : String) (x : Located) : Prop :=
  (name = stripFragment (d.base?.getD "") ∧ x.origin = d.origin ∧
    d.components.pathItems.get? key = some x.item) ∨
  ∃ e, r.named? name = some e ∧ x.origin = e.document.origin ∧
    e.document.components.pathItems.get? key = some x.item

variable {r : Registry} {d : Document}

/-! ## Steps -/

/-- A local reference that names a document names the one in which it stands. -/
theorem Target.sameDocument_of_isLocal {o : Origin} {reference document : String} {t : Target}
    (h : ofReference? o reference = some t) (hl : t.isLocal) (hd : t.document = some document) :
    ∃ self, o.self = some self ∧ sameDocument document self := by
  obtain ⟨c, -, rfl⟩ := Option.map_eq_some_iff.mp h
  have hd : c.document.map o.resolve = some document := hd
  have hl : o.owns c = true := hl
  obtain ⟨name, hc, he⟩ := Option.map_eq_some_iff.mp hd
  simp only [Origin.owns, hc, Origin.isSelf, he] at hl
  cases hself : o.self with
  | none => simp only [hself] at hl; cases hl
  | some self => exact ⟨self, rfl, by simpa only [hself] using hl⟩

/-- A target that is found stands in the document itself, or it is missing there and stands in the
document that the reference names. -/
theorem Target.find?_eq_some {t : Target} {lookup : Lookup Id} {o : Origin} {x : Located}
    (h : (t.find? (some lookup) o).run = some x) :
    t.local? o = some x ∨ t.local? o = none ∧ ∃ document found, t.document = some document ∧
      (lookup document t.key).run = some found ∧ x = Target.External.located found document := by
  simp only [find?] at h
  split at h
  · rename_i hf
    exact .inl (hf.trans h)
  · rename_i document lookup' hf hd hl
    cases hl
    obtain ⟨found, hfound, rfl⟩ := Option.map_eq_some_iff.mp h
    exact .inr ⟨hf, document, found, hd, hfound, rfl⟩
  · cases h

/-- A path item of a registered document, as it is found from outside. -/
theorem exists_entry_of_pathItem? (hs : r.Sound) {document key : String} {found : External}
    (h : r.pathItem? document key = some found) :
    ∃ e, r.named? (stripFragment document) = some e ∧
      (Target.External.located found document).origin = e.document.origin ∧
      e.document.components.pathItems.get? key =
        some (Target.External.located found document).item := by
  obtain ⟨e, he, hf⟩ := Option.bind_eq_some_iff.mp h
  obtain ⟨item, hi, rfl⟩ := Option.map_eq_some_iff.mp hf
  rw [Registry.get?_eq_named?] at he
  obtain ⟨hb, hbase⟩ := hs.base (Registry.mem_of_named? he)
  refine ⟨e, he, ?_, hi⟩
  obtain ⟨base, hbase⟩ := Option.isSome_iff_exists.mp hbase
  simp only [Target.External.located, Option.getD_some, hbase, Option.some_or, Document.origin,
    ← hb]

section

variable (hs : r.Sound) (apart : ∀ base ∈ d.base?, r.contains base = false)
  (named : ∀ x ∈ documents r d, ∀ base ∈ x.base?, stripFragment base ≠ "")

include hs named in
theorem named?_of_mem {e : Registry.Entry} (he : e ∈ r.entries) {base : String}
    (hb : e.document.base? = some base) : r.named? (stripFragment base) = some e :=
  hs.named?_base he ((hs.base he).1.trans hb)
    (named _ (List.mem_cons_of_mem _ (List.mem_map_of_mem he)) base hb)

include hs apart in
/-- The document itself is not registered under its name. -/
theorem named?_self : r.named? (stripFragment (d.base?.getD "")) = none := by
  cases hb : d.base? with
  | none => exact hs.named?_empty
  | some base =>
    have h := apart base hb
    rwa [Registry.contains, Registry.get?_eq_named?, Option.isSome_eq_false_iff,
      Option.isNone_iff_eq_none] at h

include hs apart in
/-- A mark stands for at most one path item. -/
theorem Denotes.unique {name key : String} {x y : Located} (hx : Denotes r d name key x)
    (hy : Denotes r d name key y) : x = y := by
  have self := named?_self hs apart
  obtain ⟨item, origin⟩ := x
  obtain ⟨item', origin'⟩ := y
  rcases hx with ⟨hm, rfl, hx⟩ | ⟨e, he, rfl, hx⟩ <;>
    rcases hy with ⟨hm', rfl, hy⟩ | ⟨e', he', rfl, hy⟩
  · rw [hx] at hy; cases hy; rfl
  · rw [hm, self] at he'; cases he'
  · rw [hm', self] at he; cases he
  · rw [he] at he'; cases he'
    rw [hx] at hy; cases hy; rfl

theorem Denotes.mem_targets {name key : String} {x : Located} (hx : Denotes r d name key x) :
    x ∈ targets r d := by
  obtain ⟨item, origin⟩ := x
  rcases hx with ⟨-, rfl, hx⟩ | ⟨e, he, rfl, hx⟩
  · exact List.mem_flatMap.mpr ⟨d, List.mem_cons_self,
      List.mem_map.mpr ⟨item, OrderedMap.mem_values_of_get? hx, rfl⟩⟩
  · refine List.mem_flatMap.mpr ⟨e.document, ?_,
      List.mem_map.mpr ⟨item, OrderedMap.mem_values_of_get? hx, rfl⟩⟩
    exact List.mem_cons_of_mem _ (List.mem_map_of_mem (Registry.mem_of_named? he))

variable {item : PathItem}
  (faithful : ∀ u ∈ comparedNames r d item, ∀ v ∈ comparedNames r d item,
    sameDocument u v → stripFragment u = stripFragment v)

include faithful in
/-- A local reference that names a document names it by the text of its base. -/
theorem stripFragment_eq_of_isLocal {here : Located}
    (hh : here = { item, origin := d.origin } ∨ here ∈ targets r d) {t : Target}
    (ht : here.target? = some t) (hl : t.isLocal) {document : String}
    (hd : t.document = some document) :
    ∃ base, here.origin.self = some base ∧ stripFragment document = stripFragment base := by
  obtain ⟨reference, -, ht'⟩ := Option.bind_eq_some_iff.mp ht
  obtain ⟨base, hb, hsame⟩ := Target.sameDocument_of_isLocal ht' hl hd
  refine ⟨base, hb, faithful document ?_ base ?_ hsame⟩
  · refine List.mem_append_right _ (List.mem_filterMap.mpr ⟨here, ?_, ?_⟩)
    · rcases hh with rfl | hh
      · exact List.mem_cons_self
      · exact List.mem_cons_of_mem _ hh
    · rw [ht]; exact hd
  · refine List.mem_append_left _ ?_
    rcases hh with rfl | hh
    · exact List.mem_filterMap.mpr ⟨d, List.mem_cons_self, hb⟩
    · obtain ⟨x, hx, hh⟩ := List.mem_flatMap.mp hh
      obtain ⟨item, -, rfl⟩ := List.mem_map.mp hh
      exact List.mem_filterMap.mpr ⟨x, hx, hb⟩

/-- References are followed from the document itself and from registered ones. -/
theorem origin_of_mem_targets {here : Located}
    (hh : here = { item, origin := d.origin } ∨ here ∈ targets r d) :
    here.origin = d.origin ∨ ∃ e ∈ r.entries, here.origin = e.document.origin := by
  rcases hh with rfl | hh
  · exact .inl rfl
  · obtain ⟨y, hy, hh⟩ := List.mem_flatMap.mp hh
    obtain ⟨_, -, rfl⟩ := List.mem_map.mp hh
    rcases List.mem_cons.mp hy with rfl | hy
    · exact .inl rfl
    · obtain ⟨e, he, rfl⟩ := List.mem_map.mp hy
      exact .inr ⟨e, he, rfl⟩

include hs named in
/-- A target among the components of the document in which the reference stands is what its mark
stands for. -/
theorem denotes_of_local? {t : Target} {o : Origin} {x : Located}
    (ho : o = d.origin ∨ ∃ e ∈ r.entries, o = e.document.origin) (h : t.local? o = some x) :
    Denotes r d (t.mark o).1 (t.mark o).2 x := by
  rw [Target.local?] at h
  split at h
  next hl =>
    obtain ⟨i, hi, rfl⟩ := Option.map_eq_some_iff.mp h
    simp only [Target.mark, Target.countedDocument, hl, ↓reduceIte]
    rcases ho with rfl | ⟨e, he, rfl⟩ <;> rw [Document.origin_components] at hi <;>
      rw [Document.origin_self]
    · exact .inl ⟨rfl, rfl, hi⟩
    · obtain ⟨hb, hbase⟩ := hs.base he
      obtain ⟨base, hbase⟩ := Option.isSome_iff_exists.mp (hb ▸ hbase)
      refine .inr ⟨e, ?_, rfl, hi⟩
      rw [hbase]
      exact named?_of_mem hs named he hbase
  next => cases h

include hs apart named faithful in
/-- A target that is missing where the reference stands, and found in a registered document, is not
local: that document is another one. -/
theorem not_isLocal_of_named? {here : Located}
    (hh : here = { item, origin := d.origin } ∨ here ∈ targets r d) {t : Target}
    (ht : here.target? = some t) (hlocal : t.local? here.origin = none) {document : String}
    (hd : t.document = some document) {e : Registry.Entry}
    (he : r.named? (stripFragment document) = some e)
    (hi : e.document.components.pathItems.get? t.key ≠ none) : ¬ t.isLocal := by
  intro hl
  obtain ⟨base, hself, hstrip⟩ := stripFragment_eq_of_isLocal faithful hh ht hl hd
  rw [hstrip] at he
  simp only [Target.local?, hl, ↓reduceIte, Option.map_eq_none_iff] at hlocal
  rcases origin_of_mem_targets hh with ho | ⟨e', he', ho⟩ <;>
    rw [ho, Document.origin_self] at hself <;>
    rw [ho, Document.origin_components] at hlocal
  · have hnone := named?_self hs apart
    rw [hself, Option.getD_some, he] at hnone
    cases hnone
  · rw [named?_of_mem hs named he' hself] at he
    cases he
    exact hi hlocal

include hs apart named faithful in
/-- What a reference leads to is what its mark stands for. -/
theorem denotes_of_next? {here x : Located} {mark : String × String}
    (hh : here = { item, origin := d.origin } ∨ here ∈ targets r d)
    (hn : next? (some r.lookup) here = some x) (hm : here.mark? = some mark) :
    Denotes r d mark.1 mark.2 x := by
  obtain ⟨t, ht, hf⟩ := Option.bind_eq_some_iff.mp hn
  obtain rfl : t.mark here.origin = mark := by simpa [Located.mark?, ht] using hm
  rcases Target.find?_eq_some hf with hlocal | ⟨hlocal, document, found, hd, hfound, rfl⟩
  · exact denotes_of_local? hs named (origin_of_mem_targets hh) hlocal
  · obtain ⟨e, he, ho, hi⟩ := exists_entry_of_pathItem? hs hfound
    have hl : ¬ t.isLocal :=
      not_isLocal_of_named? hs apart named faithful hh ht hlocal hd he (by rw [hi]; simp)
    refine .inr ⟨e, ?_, ho, hi⟩
    simpa only [Target.mark, Target.countedDocument, hl, Bool.false_eq_true, ↓reduceIte, hd,
      Option.getD_some] using he

include hs apart named faithful in
/-- What a reference leads to is a path item among the components of a document. -/
theorem mem_targets_of_next? {here x : Located}
    (hh : here = { item, origin := d.origin } ∨ here ∈ targets r d)
    (hn : next? (some r.lookup) here = some x) : x ∈ targets r d := by
  obtain ⟨mark, hm⟩ := Option.isSome_iff_exists.mp (mark?_isSome_of_next? hn)
  exact (denotes_of_next? hs apart named faithful hh hn hm).mem_targets

include hs apart named faithful in
/-- A chain has no more references than there are path items that they may lead to. -/
theorem Leads.length_le {c : Chain}
    (h : Leads (some r.lookup) { item, origin := d.origin } c) :
    c.length ≤ (targets r d).length := by
  cases h with
  | written => exact Nat.zero_le _
  | @followed _ next c hn hc =>
    have mem : ∀ x ∈ c.items, x ∈ targets r d :=
      hc.forall_items (fun hx hy => mem_targets_of_next? hs apart named faithful (.inr hx) hy)
        (mem_targets_of_next? hs apart named faithful (.inl rfl) hn)
    have := (List.Nodup.subperm hc.nodup_items mem).length_le
    simpa [Chain.length, Chain.cons, Chain.items] using this

end

theorem length_targets (r : Registry) (d : Document) :
    (targets r d).length = d.components.pathItems.size + r.pathItemCount := by
  simp [targets, documents, Document.located, Registry.pathItemCount, OrderedMap.values,
    OrderedMap.size, List.length_flatMap, Function.comp_def]

/-! ## Resolution -/

section

variable (d : Document) (lookup : Option (Lookup Id)) (known : Nat)

@[simp] theorem context_origin : (d.context lookup known).origin = d.origin := rfl

@[simp] theorem context_lookup : (d.context lookup known).lookup = lookup := rfl

@[simp] theorem context_limit :
    (d.context lookup known).limit = d.components.pathItems.size + known + 1 := rfl

end

/-- Resolving a path item of a document that is not registered, with a registry for the other
documents, is following its references without marks to the end, if there is one. Of the names that
are compared on the way, those of one document have the same text. -/
theorem resolve_registered {r : Registry} {d : Document} {item : PathItem} (reached : r.Reached)
    (apart : ∀ base ∈ d.base?, r.contains base = false)
    (named : ∀ x ∈ documents r d, ∀ base ∈ x.base?, stripFragment base ≠ "")
    (faithful : ∀ u ∈ comparedNames r d item, ∀ v ∈ comparedNames r d item,
      sameDocument u v → stripFragment u = stripFragment v) :
    (∀ m, (resolve (d.context (some r.lookup) r.pathItemCount) item).run = some m ↔
      ∃ c, Leads (some r.lookup) { item, origin := d.origin } c ∧ Merged.ofChain c = m) ∧
    ((resolve (d.context (some r.lookup) r.pathItemCount) item).run = none ↔
      Breaks (some r.lookup) { item, origin := d.origin } ∨
      Endless (some r.lookup) { item, origin := d.origin }) := by
  have hs := reached.sound
  have found : ∀ c, (followBelow (some r.lookup) (d.components.pathItems.size + r.pathItemCount + 1)
      [] { item, origin := d.origin }).run = some c ↔
      Leads (some r.lookup) { item, origin := d.origin } c := by
    refine fun c => ⟨leads_of_followBelow, fun hc => ?_⟩
    have place : ∀ x ∈ c.items, x = { item, origin := d.origin } ∨ x ∈ targets r d :=
      hc.forall_items (fun hx hy => .inr (mem_targets_of_next? hs apart named faithful hx hy))
        (.inl rfl)
    refine hc.followBelow ?_ (fun x hx y hy x' y' hx' hy' he => ?_) (by simp)
    · have := Leads.length_le hs apart named faithful hc
      rw [length_targets] at this
      exact Nat.lt_succ_of_le this
    · obtain ⟨mark, hm⟩ := Option.isSome_iff_exists.mp (mark?_isSome_of_next? hx')
      exact (denotes_of_next? hs apart named faithful (place x hx) hx' hm).unique hs apart
        (denotes_of_next? hs apart named faithful (place y hy) hy' (he ▸ hm))
  rw [run_resolve, context_origin, context_lookup, context_limit]
  refine ⟨fun m => ?_, ?_⟩
  · rw [Option.map_eq_some_iff]
    exact exists_congr fun c => and_congr_left fun _ => found c
  · rw [Option.map_eq_none_iff, Option.eq_none_iff_forall_ne_some, ← not_leads_iff]
    exact forall_congr' fun c => not_congr (found c)

/-- A document with a path item that refers to one in another document. -/
def referringDocument : Document where
  self := some "http://a/x"
  components := { pathItems := .ofList [
    ("Base", { reference := some "y#/components/pathItems/Users" })] }

/-- A document with a path item that refers to one of its own. -/
def sharedDocument : Document where
  self := some "http://a/y"
  components := { pathItems := .ofList [
    ("Users", { reference := some "#/components/pathItems/Base", summary := some "Shared users" }),
    ("Base", {})] }

/-- A registry with the document that is referred to. -/
def sharedRegistry : Registry :=
  (Registry.register {} "http://a/z" sharedDocument).registry

/-- The key `Base` of one document leads through another document to the key `Base` there. -/
theorem resolve_registered_same_key :
    (∀ base ∈ referringDocument.base?, sharedRegistry.contains base = false) ∧
    ∃ c, Leads (some sharedRegistry.lookup)
      { item := { reference := some "#/components/pathItems/Base" },
        origin := referringDocument.origin } c ∧
      (Merged.ofChain c).item.summary = some "Shared users" := by
  have apart : ∀ base ∈ referringDocument.base?, sharedRegistry.contains base = false := by
    decide +kernel
  refine ⟨apart, ?_⟩
  have resolved : ((resolve (referringDocument.context (some sharedRegistry.lookup)
      sharedRegistry.pathItemCount)
      { reference := some "#/components/pathItems/Base" }).run.map (·.item.summary)) =
      some (some "Shared users") := by
    decide +kernel
  obtain ⟨m, hm, hs⟩ := Option.map_eq_some_iff.mp resolved
  obtain ⟨c, hc, rfl⟩ := ((resolve_registered Registry.Reached.empty.register apart
    (by decide +kernel) (by decide +kernel)).1 m).mp hm
  exact ⟨c, hc, hs⟩

end PathItem

end OpenApi
