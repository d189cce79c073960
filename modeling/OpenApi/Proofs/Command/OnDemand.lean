import OpenApi.Command.Operations
import OpenApi.Proofs.Registration
import OpenApi.Proofs.Resolution
import OpenApi.Proofs.Route.Answers

/-!
# Documents that are read on demand

Documents are read when they are first referred to, and registered. What a text is read as does not
change (`Reading`), so that it makes no difference when it is read and what else is registered then
(`Session`), as long as a text and its normal form are read alike.

* `gives_onDemand`: whatever was registered before, a path item is found as if its document were
  read for it;
* `gives_operations`: and so are the operations of a document;
* `operations_preloaded`: documents that are registered beforehand need not be read, and change
  nothing else.
-/

namespace OpenApi

open Reference (stripFragment resolveAgainst)

/-- The path item under a key among the components of a registered document. -/
def Registry.Entry.pathItem? (e : Registry.Entry) (key : String) : Option PathItem.External :=
  (e.document.components.pathItems.get? key).map fun item =>
    { item, components := some e.document.components, self := e.base }

theorem Registry.pathItem?_of_get? {r : Registry} {uri : String} {e : Registry.Entry}
    (h : r.get? uri = some e) (key : String) : r.pathItem? uri key = e.pathItem? key := by
  rw [Registry.pathItem?, h, Option.bind_some]
  rfl

namespace Registry

/-- An entry that is found under a text has a name that the text stands for. -/
theorem Sound.of_get? {r : Registry} (h : r.Sound) {uri : String} {e : Entry}
    (he : r.get? uri = some e) : e ∈ r.entries ∧ ∃ name,
      (name = stripFragment uri ∨ name = resolveAgainst (stripFragment uri) none) ∧
        e.Named name := by
  obtain ⟨i, hi, he⟩ := Option.bind_eq_some_iff.mp he
  have hnamed {name : String} (hi : r.aliases.get? name = some i) : e.Named name := by
    obtain ⟨e', he', hnamed⟩ := h.alias_iff.mp hi
    rw [he] at he'
    cases he'
    exact hnamed
  refine ⟨List.mem_of_getElem? he, ?_⟩
  rcases Option.or_eq_some_iff.mp hi with hi | ⟨-, hi⟩
  · exact ⟨_, .inl rfl, hnamed hi⟩
  · exact ⟨_, .inr rfl, hnamed hi⟩

/-- Where nothing is found under a text, no entry has a name that the text stands for. -/
theorem Sound.not_named_of_get? {r : Registry} (h : r.Sound) {uri name : String} {e : Entry}
    (hnew : r.get? uri = none) (he : e ∈ r.entries)
    (hname : name = stripFragment uri ∨ name = resolveAgainst (stripFragment uri) none) :
    ¬ e.Named name := by
  intro hnamed
  obtain ⟨i, hi⟩ := List.mem_iff_getElem?.mp he
  have halias := h.alias_iff.mpr ⟨e, hi, hnamed⟩
  have hsome : ((r.aliases.get? (stripFragment uri)).or
      (r.aliases.get? (resolveAgainst (stripFragment uri) none))).isSome := by
    rw [Option.isSome_or, Bool.or_eq_true]
    rcases hname with hname | hname
    · exact .inl (by rw [← hname, halias]; rfl)
    · exact .inr (by rw [← hname, halias]; rfl)
  obtain ⟨j, hj⟩ := Option.isSome_iff_exists.mp hsome
  have hentry : ∃ e', r.entries[j]? = some e' := by
    rcases Option.or_eq_some_iff.mp hj with hj | ⟨-, hj⟩
    · exact (h.stands hj).imp fun _ => And.left
    · exact (h.stands hj).imp fun _ => And.left
  obtain ⟨e', he'⟩ := hentry
  rw [get?, hj, Option.bind_some, he'] at hnew
  cases hnew

end Registry

namespace Command.Operations

open PathItem Registry

/-! ## Reading -/

/-- What a text is read as, if it can be read. -/
abbrev Reading := String → Option String

/-- The normal form of a text. -/
def normalForm (uri : String) : String := resolveAgainst uri none

namespace Reading

variable (F : Reading)

/-- The document that a text is read as, if there is one. -/
def document? (uri : String) : Option Document :=
  (F uri).bind fun text => (Document.ofYaml text).toOption

/-- The entry of the document that a text is read as. -/
def entryOf? (uri : String) : Option Entry := (F.document? uri).map (Entry.of uri)

/-- Reads texts and notes which. -/
def noting (uri : String) : StateM (List String) (Option String) := do
  modify (· ++ [uri])
  return F uri

/-- The path item under a key of a document that is read for it. -/
def resolver : PathItem.Resolver Error Id := fun uri key =>
  match F uri with
  | none => .error .unreadableFile
  | some text =>
    match Document.ofYaml text with
    | .error fault => .error (.document fault)
    | .ok d => .ok ((Entry.of uri d).pathItem? key)

/-- A text without fragment is read as its normal form is, and if it can be read, that form is
final. A text in normal form fits whatever it is read as, unless it is empty. -/
structure Fits (uri : String) : Prop where
  bare : stripFragment uri = uri
  alike : F (normalForm uri) = F uri
  named : (F uri).isSome → uri ≠ ""
  final : (F uri).isSome → normalForm (normalForm uri) = normalForm uri

end Reading

variable {F : Reading} {uri other name : String} {d : Document}

open Reading

theorem Reading.document?_eq_some (h : F.document? uri = some d) :
    ∃ text, F uri = some text ∧ Document.ofYaml text = .ok d := by
  obtain ⟨text, htext, h⟩ := Option.bind_eq_some_iff.mp h
  refine ⟨text, htext, ?_⟩
  cases hd : Document.ofYaml text with
  | error fault => rw [hd] at h; cases h
  | ok d' => rw [hd] at h; cases h; rfl

theorem Reading.isSome_of_document? (h : F.document? uri = some d) : (F uri).isSome := by
  obtain ⟨text, htext, -⟩ := document?_eq_some h
  rw [htext]
  rfl

/-! ## Names of what is read -/

theorem base_of (hd : d.self = none) : (Entry.of uri d).base = some (normalForm uri) := by
  simp only [Entry.of, Document.retrievedFrom, Document.base?, hd, normalForm]

namespace Reading.Fits

theorem bare_normalForm (h : F.Fits uri) : stripFragment (normalForm uri) = normalForm uri := by
  refine Reference.stripFragment_resolveAgainst ?_ none
  rw [← h.bare]
  exact Reference.notMem_stripFragment uri

/-- The names of a document that does not name itself. -/
theorem named_iff (h : F.Fits uri) (hd : d.self = none) :
    (Entry.of uri d).Named name ↔ name ≠ "" ∧ (name = uri ∨ name = normalForm uri) := by
  rw [Entry.Named, base_of hd, Option.map_some, Option.some_inj]
  show _ ∧ (name = stripFragment uri ∨ name = stripFragment (normalForm uri) ∨ _) ↔ _
  rw [h.bare, h.bare_normalForm, eq_comm (a := normalForm uri), or_self]

/-- Texts with a name in common are read alike and have one normal form. -/
theorem same (h : F.Fits uri) (h' : F.Fits other) (hread : (F other).isSome)
    (hname : name = uri ∨ name = normalForm uri)
    (hname' : name = other ∨ name = normalForm other) :
    F uri = F other ∧ normalForm uri = normalForm other := by
  have hread' {uri : String} (h : F.Fits uri) (hname : name = uri ∨ name = normalForm uri) :
      F uri = F name := by
    rcases hname with hname | hname
    · rw [hname]
    · rw [hname, h.alike]
  have hform {uri : String} (h : F.Fits uri) (hname : name = uri ∨ name = normalForm uri)
      (hread : (F uri).isSome) : normalForm uri = normalForm name := by
    rcases hname with hname | hname
    · rw [hname]
    · rw [hname, h.final hread]
  have hF : F uri = F other := (hread' h hname).trans (hread' h' hname').symm
  exact ⟨hF, (hform h hname (hF ▸ hread)).trans (hform h' hname' hread).symm⟩

end Reading.Fits

/-! ## Sessions -/

/-- What a run that reads on demand does to a registry, given the texts that it reads. -/
structure History (F : Reading) (start r : Registry) (reads : List String) : Prop where
  /-- No entry is removed or replaced, and every text that is read as a document adds one. -/
  entries : r.entries = start.entries ++ reads.filterMap F.entryOf?
  names {name : String} {i : Nat} : start.aliases.get? name = some i →
    r.aliases.get? name = some i
  /-- A text that was read as a document is not read again. -/
  once : reads.Pairwise fun earlier later => (F.entryOf? earlier).isSome → later ≠ earlier
  /-- A text under which a document was registered beforehand is not read. -/
  spared : ∀ e ∈ start.entries, e.retrieval ∉ reads

/-- A registry that was filled by reading documents which do not name themselves, and what was read
since it was another one. -/
structure Session (F : Reading) (start r : Registry) (reads : List String) : Prop where
  sound : r.Sound
  source {e : Entry} : e ∈ r.entries → ∃ uri d, F.Fits uri ∧ F.document? uri = some d ∧
    d.self = none ∧ e = Entry.of uri d
  history : History F start r reads

variable {start r : Registry} {reads : List String}

/-- What is known under a text is the document that it is read as. -/
theorem Session.of_get? (h : Session F start r reads) (hfits : F.Fits uri) {e : Entry}
    (he : r.get? uri = some e) :
    ∃ d, F.document? uri = some d ∧ ∀ key, e.pathItem? key = (Entry.of uri d).pathItem? key := by
  obtain ⟨hmem, name, hname, hnamed⟩ := h.sound.of_get? he
  obtain ⟨other, d, hother, hd, hself, rfl⟩ := h.source hmem
  rw [hfits.bare] at hname
  obtain ⟨hread, hform⟩ := hfits.same hother (isSome_of_document? hd) hname
    ((hother.named_iff hself).mp hnamed).2
  refine ⟨d, ?_, fun key => ?_⟩
  · rw [document?, hread]
    exact hd
  · simp only [Entry.pathItem?, base_of hself, hform]
    rfl

/-- What is read for a text that is not known adds its names to a registry, none of them taken. -/
theorem Session.not_clashes (h : Session F start r reads) (hfits : F.Fits uri)
    (hnew : r.get? uri = none) (hself : d.self = none) : ¬ (Entry.of uri d).Clashes r.entries := by
  rintro ⟨name, hname, e, he, hnamed⟩
  refine h.sound.not_named_of_get? hnew he ?_ hnamed
  rw [hfits.bare]
  exact ((hfits.named_iff hself).mp hname).2

/-- The texts of entries are known. -/
theorem Session.get?_retrieval_ne_none (h : Session F start r reads) {e : Entry}
    (he : e ∈ r.entries) : r.get? e.retrieval ≠ none := by
  intro hnew
  obtain ⟨other, d, hother, hd, hself, rfl⟩ := h.source he
  refine h.sound.not_named_of_get? hnew he ?_
    ((hother.named_iff hself).mpr ⟨hother.named (isSome_of_document? hd), .inl rfl⟩)
  exact .inl hother.bare.symm

/-- Reading a text that is not known, as no document or as one that is registered. -/
theorem Session.read (h : Session F start r reads) (hfits : F.Fits uri) (hnew : r.get? uri = none)
    {r' : Registry} (sound : r'.Sound) (entries : r'.entries = r.entries ++ (F.entryOf? uri).toList)
    (hself : ∀ d, F.document? uri = some d → d.self = none) :
    Session F start r' (reads ++ [uri]) := by
  have apart {e : Entry} (he : e ∈ r.entries) : uri ≠ e.retrieval := by
    rintro rfl
    exact h.get?_retrieval_ne_none he hnew
  refine ⟨sound, fun {e} he => ?_, ⟨?_, fun {name i} hi => ?_, ?_, fun e he => ?_⟩⟩
  · rw [entries, List.mem_append, Option.mem_toList] at he
    rcases he with he | he
    · exact h.source he
    · obtain ⟨d, hd, rfl⟩ := Option.map_eq_some_iff.mp he
      exact ⟨uri, d, hfits, hd, hself d hd, rfl⟩
  · rw [entries, h.history.entries, List.filterMap_append, List.append_assoc]
    cases he : F.entryOf? uri <;> simp [he]
  · obtain ⟨e, he, hnamed⟩ := h.sound.alias_iff.mp (h.history.names hi)
    refine sound.alias_iff.mpr ⟨e, ?_, hnamed⟩
    rw [entries, List.getElem?_append_left (List.getElem?_eq_some_iff.mp he).1, he]
  · rw [List.pairwise_append]
    refine ⟨h.history.once, List.pairwise_singleton _ _, fun earlier hearlier later hlater => ?_⟩
    rw [List.mem_singleton.mp hlater]
    intro hread
    obtain ⟨e, he⟩ := Option.isSome_iff_exists.mp hread
    obtain ⟨d, -, rfl⟩ := Option.map_eq_some_iff.mp he
    refine apart (e := Entry.of earlier d) ?_
    rw [h.history.entries]
    exact List.mem_append_right _ (List.mem_filterMap.mpr ⟨earlier, hearlier, he⟩)
  · rw [List.mem_append, List.mem_singleton, not_or]
    refine ⟨h.history.spared e he, Ne.symm (apart ?_)⟩
    rw [h.history.entries]
    exact List.mem_append_left _ he

/-- The registry with the document that a text is read as. -/
def Reading.load (F : Reading) (r : Registry) (uri : String) : Except Error Registry :=
  (Operations.load F r uri : ExceptT Error Id Registry).run

theorem Reading.load_eq (r : Registry) (uri : String) : F.load r uri =
    match F uri with
    | none => .error .unreadableFile
    | some text => (r.registerYaml uri text).mapError Error.ofRegistration := by
  rw [Reading.load, Operations.load]
  cases F uri <;> rfl

theorem run_load_noting (r : Registry) (uri : String) (reads : List String) :
    (Operations.load F.noting r uri).run.run reads = (F.load r uri, reads ++ [uri]) := by
  rw [Reading.load_eq, Operations.load, noting]
  cases F uri <;>
    simp only [bind_pure_comp, liftM_map, liftM_modify, bind_map_left] <;> rfl

theorem run_onDemand_of_known (known : r.contains uri = true) (key : String) :
    ((onDemand F.noting uri key).run r).run reads =
      ((.ok (r.pathItem? uri key), r), reads) := by
  simp only [onDemand, bind_pure_comp, StateT.run_bind, StateT.run_get, pure_bind, known,
    if_true, StateT.run_pure]
  rfl

theorem run_onDemand_of_new (new : r.contains uri = false) (key : String) :
    ((onDemand F.noting uri key).run r).run reads =
      match F.load r uri with
      | .error e => ((.error e, r), reads ++ [uri])
      | .ok r' => ((.ok (r'.pathItem? uri key), r'), reads ++ [uri]) := by
  simp only [onDemand, bind_pure_comp, StateT.run_bind, StateT.run_get, pure_bind, new,
    Bool.false_eq_true, if_false, StateT.run_monadLift, monadLift_self, bind_map_left]
  rw [run_load_noting]
  cases F.load r uri <;> rfl

/-! ## Answers -/

theorem Reading.resolver_of_document? (h : F.document? uri = some d) (key : String) :
    F.resolver uri key = .ok ((Entry.of uri d).pathItem? key) := by
  obtain ⟨text, htext, hd⟩ := document?_eq_some h
  simp only [Reading.resolver, htext, hd]

/-- The document that is read is registered, if none of its names is taken. -/
theorem Reading.load_of_document? (hs : r.Sound) (h : F.document? uri = some d)
    (hfree : ¬ (Entry.of uri d).Clashes r.entries) :
    F.load r uri = .ok (r.push (Entry.of uri d)) := by
  obtain ⟨text, htext, hd⟩ := document?_eq_some h
  have hregister : r.registerYaml uri text =
      { result := .ok (), registry := r.push (Entry.of uri d) } :=
    (Call.run_of_ok (c := ⟨uri, .yaml text⟩) hd r).trans (hs.register_of_not_clashes hfree)
  rw [Reading.load_eq, htext]
  simp only [hregister, Registration.mapError]

/-- What is no document fails alike, whatever is registered. -/
theorem Reading.exists_error_of_document? (h : F.document? uri = none) :
    ∃ e, (∀ r, F.load r uri = .error e) ∧ ∀ key, F.resolver uri key = .error e := by
  rw [document?] at h
  cases hF : F uri with
  | none =>
    exact ⟨.unreadableFile, fun r => by rw [Reading.load_eq, hF],
      fun key => by simp only [Reading.resolver, hF]⟩
  | some text =>
    rw [hF, Option.bind_some] at h
    cases hd : Document.ofYaml text with
    | error fault =>
      refine ⟨.document fault, fun r => ?_, fun key => by simp only [Reading.resolver, hF, hd]⟩
      have hregister : r.registerYaml uri text =
          { result := .error (.document fault), registry := r } :=
        Call.run_of_error (c := ⟨uri, .yaml text⟩) hd r
      rw [Reading.load_eq, hF]
      simp only [hregister, Registration.mapError, Error.ofRegistration]
    | ok d =>
      rw [hd] at h
      cases h

/-- A text that is not known is read as a document, which is registered. -/
theorem Session.load (h : Session F start r reads) (hfits : F.Fits uri) (hnew : r.get? uri = none)
    (hself : ∀ d, F.document? uri = some d → d.self = none) (hd : F.document? uri = some d) :
    F.load r uri = .ok (r.push (Entry.of uri d)) ∧
      Session F start (r.push (Entry.of uri d)) (reads ++ [uri]) := by
  have hfree := h.not_clashes hfits hnew (hself d hd)
  refine ⟨load_of_document? h.sound hd hfree, h.read hfits hnew ?_ ?_ hself⟩
  · have hsound : (r.register uri d).registry.Sound := h.sound.register
    rwa [h.sound.register_of_not_clashes hfree] at hsound
  · rw [entryOf?, hd]
    rfl

/-- Whatever was registered before, a path item is found as if its document were read for it. -/
theorem gives_onDemand (hfits : F.Fits uri)
    (hself : ∀ d, F.document? uri = some d → d.self = none) (key : String) :
    Gives (Session F start) (onDemand F.noting uri key) (F.resolver uri key).run := by
  intro r reads h
  cases he : r.get? uri with
  | some e =>
    have known : r.contains uri = true := by rw [contains, he]; rfl
    obtain ⟨d, hd, hitem⟩ := h.of_get? hfits he
    refine ⟨r, reads, ?_, h⟩
    rw [run_onDemand_of_known known, pathItem?_of_get? he, hitem, resolver_of_document? hd]
    rfl
  | none =>
    have new : r.contains uri = false := by rw [contains, he]; rfl
    rw [run_onDemand_of_new new]
    cases hd : F.document? uri with
    | none =>
      obtain ⟨e, hload, hresolver⟩ := exists_error_of_document? hd
      refine ⟨r, reads ++ [uri], ?_, h.read hfits he h.sound ?_ hself⟩
      · rw [hload, hresolver]
        rfl
      · rw [entryOf?, hd, Option.map_none, Option.toList_none, List.append_nil]
    | some d =>
      obtain ⟨hload, hsession⟩ := h.load hfits he hself hd
      refine ⟨r.push (Entry.of uri d), reads ++ [uri], ?_, hsession⟩
      have hnamed : (Entry.of uri d).Named uri :=
        (hfits.named_iff (hself d hd)).mpr ⟨hfits.named (isSome_of_document? hd), .inl rfl⟩
      have hget : (r.push (Entry.of uri d)).get? uri = some (Entry.of uri d) := by
        rw [get?_eq_named?, hfits.bare]
        exact hsession.sound.named?_of_mem_names
          (List.mem_append_right _ List.mem_cons_self) (Entry.mem_names_iff.mpr hnamed)
      rw [hload, resolver_of_document? hd, ← pathItem?_of_get? hget]
      rfl

/-! ## Runs -/

/-- The path items from which references are followed while the operations of a document are listed:
those that are listed, and those among the components of the document or of one that is read. -/
inductive Followed (F : Reading) (d : Document) : Located → Prop
  | listed {kind : Route.Kind} {path : String} {item : PathItem} :
    (kind, path, item) ∈ Route.listedItems d.paths d.webhooks →
    Followed F d { item, origin := d.origin }
  | own {here : Located} : here ∈ d.located → Followed F d here
  | read {uri : String} {d' : Document} {here : Located} : F.document? uri = some d' →
    here ∈ (d'.retrievedFrom (some uri)).located → Followed F d here

/-- Another document is referred to by a text, resolved where the reference stands. -/
def Asked (F : Reading) (d : Document) (uri : String) : Prop :=
  ∃ here t, Followed F d here ∧ here.target? = some t ∧ t.document = some uri

/-- Only URLs are read, and no document that is read names itself. Resolving once more what is
referred to leaves a normal form, if it can be read, and changes nothing about how it is read. Not
every reference is resolved to a normal form: `.//C|` is to `file:///C|` in `file:///api.yaml`,
though the normal form of that is `file:///C:`. -/
structure Settled (F : Reading) (d : Document) : Prop where
  url {uri : String} : (F uri).isSome → (Uri.parse? uri).isSome
  nameless {uri : String} {d' : Document} : F.document? uri = some d' → d'.self = none
  alike {uri : String} : Asked F d uri → F (normalForm uri) = F uri
  final {uri : String} : Asked F d uri → (F uri).isSome →
    normalForm (normalForm uri) = normalForm uri

/-- What references name is resolved to a text without fragment. -/
theorem Asked.bare (h : Asked F d uri) : stripFragment uri = uri := by
  obtain ⟨here, t, -, ht, hd⟩ := h
  obtain ⟨reference, -, ht⟩ := Option.bind_eq_some_iff.mp ht
  obtain ⟨c, hc, rfl⟩ := Option.map_eq_some_iff.mp ht
  obtain ⟨document, hdocument, rfl⟩ := Option.map_eq_some_iff.mp hd
  exact Reference.stripFragment_resolveAgainst (Reference.notMem_of_component? hc hdocument) _

/-- Where references are resolved to normal forms, resolving once more changes nothing. -/
theorem Settled.of_normal (url : ∀ {uri}, (F uri).isSome → (Uri.parse? uri).isSome)
    (nameless : ∀ {uri d'}, F.document? uri = some d' → d'.self = none)
    (normal : ∀ {uri}, Asked F d uri → normalForm uri = uri) : Settled F d where
  url := url
  nameless := nameless
  alike h := by rw [normal h]
  final h _ := by rw [normal h, normal h]

theorem Settled.ne_empty (h : Settled F d) (hread : (F uri).isSome) : uri ≠ "" := by
  rintro rfl
  exact absurd (h.url hread) (by decide)

theorem Settled.fits (h : Settled F d) (ha : Asked F d uri) : F.Fits uri where
  bare := ha.bare
  alike := h.alike ha
  named := h.ne_empty
  final := h.final ha

theorem Followed.of_components {here : Located} (h : Followed F d here) {key : String}
    {item : PathItem} (hi : here.origin.components.pathItems.get? key = some item) :
    Followed F d { item, origin := here.origin } := by
  have located {d' : Document} (hi : d'.components.pathItems.get? key = some item) :
      ({ item, origin := d'.origin } : Located) ∈ d'.located :=
    List.mem_map.mpr ⟨item, OrderedMap.mem_values_of_get? hi, rfl⟩
  cases h with
  | listed => exact .own (located hi)
  | own h =>
    obtain ⟨_, -, rfl⟩ := List.mem_map.mp h
    exact .own (located hi)
  | read hd h =>
    obtain ⟨_, -, rfl⟩ := List.mem_map.mp h
    exact .read hd (located hi)

/-- What is found in another document is followed from there. -/
theorem followed_of_resolver {found : External} {key : String}
    (h : F.resolver uri key = .ok (some found)) :
    Followed F d (Target.External.located found uri) := by
  cases hd : F.document? uri with
  | none =>
    obtain ⟨e, -, hfails⟩ := exists_error_of_document? hd
    rw [hfails] at h
    cases h
  | some d' =>
    rw [resolver_of_document? hd] at h
    obtain ⟨item, hi, rfl⟩ := Option.map_eq_some_iff.mp (Except.ok.inj h)
    refine .read hd (List.mem_map.mpr ⟨item, OrderedMap.mem_values_of_get? hi, ?_⟩)
    have hbase : (d'.retrievedFrom (some uri)).base?.isSome := by
      simp only [Document.base?, Document.retrievedFrom]
      split <;> simp_all
    obtain ⟨base, hbase⟩ := Option.isSome_iff_exists.mp hbase
    simp only [Target.External.located, Entry.of, Document.origin, hbase, Option.getD_some,
      Option.some_or]

theorem answered (h : Settled F d) : Answered (Session F start)
    (Resolver.lookup (onDemand F.noting)) (Resolver.lookup F.resolver) (Followed F d) where
  asked {here t document} hhere ht hd :=
    (gives_onDemand (h.fits ⟨here, t, hhere, ht, hd⟩) (fun _ => h.nameless) t.key).map
      Resolver.found?
  kept {here next} hhere hn := by
    obtain ⟨t, ht, hf⟩ := Option.bind_eq_some_iff.mp hn
    rcases Target.find?_eq_some hf with hlocal | ⟨-, document, found, -, hfound, rfl⟩
    · simp only [Target.local?] at hlocal
      split at hlocal
      · obtain ⟨item, hi, rfl⟩ := Option.map_eq_some_iff.mp hlocal
        exact hhere.of_components hi
      · cases hlocal
    · have hfound : Resolver.found? (F.resolver document t.key) = some found := hfound
      cases hr : F.resolver document t.key with
      | error e =>
        rw [hr] at hfound
        cases hfound
      | ok found' =>
        rw [hr] at hfound
        obtain rfl : found' = some found := hfound
        exact followed_of_resolver hr

/-- Whatever was registered before, the operations are those that are listed if every document is
read whenever it is referred to. -/
theorem gives_operations (h : Settled F d) (known : Nat) :
    Gives (Session F start) (d.operations (some (onDemand F.noting)) known).run
      (d.operations (some F.resolver) known).run.run :=
  Route.gives_ofMaps fun _ hx => gives_resolve (answered h) _ _ (.listed hx)

/-! ## Registering beforehand -/

/-- A text without fragment in its normal form. -/
structure Canonical (uri : String) : Prop where
  bare : stripFragment uri = uri
  normal : normalForm uri = uri

/-- The registry of the documents that texts are read as, registered in order. -/
def Reading.preload (F : Reading) (uris : List String) : Except Error Registry :=
  uris.foldlM F.load {}

/-- The operations of a document that are listed from a registry on, with what becomes of the
registry and the texts that are read. -/
def Reading.run (F : Reading) (d : Document) (known : Nat) (r : Registry) :
    (Except Parameter.Invalid (List Route) × Registry) × List String :=
  ((d.operations (some (onDemand F.noting)) known).run.run r).run []

theorem Settled.fits_of_canonical (h : Settled F d) (hc : Canonical uri) : F.Fits uri where
  bare := hc.bare
  alike := by rw [hc.normal]
  named := h.ne_empty
  final _ := by rw [hc.normal, hc.normal]

/-- A session starts from any registry that was filled by reading. -/
theorem Session.restart (h : Session F start r reads) : Session F r r [] where
  sound := h.sound
  source := h.source
  history := ⟨(List.append_nil _).symm, id, List.Pairwise.nil, fun _ _ => List.not_mem_nil⟩

theorem session_empty : Session F {} {} [] where
  sound := Sound.empty
  source h := by cases h
  history := ⟨rfl, id, List.Pairwise.nil, fun _ h => by cases h⟩

/-- A text in normal form is not known under another one. -/
theorem Session.get?_eq_none (h : Session F start r reads) (hc : Canonical uri)
    (apart : ∀ e ∈ r.entries, Canonical e.retrieval ∧ e.retrieval ≠ uri) :
    r.get? uri = none := by
  cases he : r.get? uri with
  | none => rfl
  | some e =>
    obtain ⟨hmem, name, hname, hnamed⟩ := h.sound.of_get? he
    obtain ⟨hcanonical, hne⟩ := apart e hmem
    obtain ⟨other, d, hother, -, hself, rfl⟩ := h.source hmem
    have hname : name = uri := by
      rw [hc.bare] at hname
      exact hname.elim id fun hname => hname.trans hc.normal
    have hname' : name = other := by
      refine ((hother.named_iff hself).mp hnamed).2.elim id fun hname => hname.trans ?_
      exact hcanonical.normal
    exact absurd (hname'.symm.trans hname) hne

/-- Texts in normal form are registered one after another, if all of them are read as documents. -/
theorem foldlM_load_eq_ok (h : Settled F d) {uris : List String} (distinct : uris.Nodup)
    (canonical : ∀ uri ∈ uris, Canonical uri)
    (readable : ∀ uri ∈ uris, (F.document? uri).isSome) (hs : Session F r r [])
    (apart : ∀ e ∈ r.entries, Canonical e.retrieval ∧ e.retrieval ∉ uris) :
    ∃ start, uris.foldlM F.load r = .ok start ∧ Session F start start [] := by
  induction uris generalizing r with
  | nil => exact ⟨r, rfl, hs⟩
  | cons uri uris ih =>
    have hc := canonical uri List.mem_cons_self
    obtain ⟨d', hd⟩ := Option.isSome_iff_exists.mp (readable uri List.mem_cons_self)
    obtain ⟨hnotMem, hnodup⟩ := List.nodup_cons.mp distinct
    have hnew : r.get? uri = none := hs.get?_eq_none hc fun e he =>
      ⟨(apart e he).1, fun heq => (apart e he).2 (heq ▸ List.mem_cons_self)⟩
    obtain ⟨hload, hsession⟩ :=
      hs.load (h.fits_of_canonical hc) hnew (fun _ => h.nameless) hd
    rw [List.foldlM_cons, hload]
    refine ih hnodup (fun u hu => canonical u (List.mem_cons_of_mem _ hu))
      (fun u hu => readable u (List.mem_cons_of_mem _ hu)) hsession.restart fun e he => ?_
    rcases List.mem_append.mp he with he | he
    · exact ⟨(apart e he).1, fun hmem => (apart e he).2 (List.mem_cons_of_mem _ hmem)⟩
    · rw [List.mem_singleton.mp he]
      exact ⟨hc, hnotMem⟩

/-- Documents can be registered beforehand under their normal forms, and the operations of a
document are the same then, routes or fault, as from the empty registry on. From either on, no text
is read again that was read as a document, and no entry is removed or replaced. -/
theorem operations_preloaded (h : Settled F d) {uris : List String} (distinct : uris.Nodup)
    (canonical : ∀ uri ∈ uris, Canonical uri) (readable : ∀ uri ∈ uris, (F.document? uri).isSome)
    (known : Nat) : ∃ start, F.preload uris = .ok start ∧ ∃ result r reads r' reads',
      F.run d known {} = ((result, r), reads) ∧ F.run d known start = ((result, r'), reads') ∧
      History F {} r reads ∧ History F start r' reads' := by
  obtain ⟨start, hstart, hsession⟩ :=
    foldlM_load_eq_ok h distinct canonical readable session_empty fun e he => by cases he
  obtain ⟨r, reads, hrun, hr⟩ := gives_operations h known {} [] session_empty
  obtain ⟨r', reads', hrun', hr'⟩ := gives_operations h known start [] hsession
  exact ⟨start, hstart, _, r, reads, r', reads', hrun, hrun', hr.history, hr'.history⟩

/-- One text that is read as a document with a path item. -/
def sharedReading : Reading := fun uri =>
  if uri = "file:///shared.yaml" then
    some "openapi: 3.2.0\ncomponents:\n pathItems:\n  Users:\n   get: \x7b\x7d"
  else none

/-- A document with a path that is written in another one. -/
def apiDocument : Document where
  retrieval := some "file:///api.yaml"
  paths := { items := .ofList [
    ("/users", { reference := some "shared.yaml#/components/pathItems/Users" })] }

theorem eq_of_sharedReading_isSome (h : (sharedReading uri).isSome) :
    uri = "file:///shared.yaml" := by
  by_contra hne
  rw [sharedReading, if_neg hne] at h
  cases h

/-- What a document calls itself, and the documents that its path items refer to. -/
def outline (uri : String) (d : Document) : Option String × List (Option String) :=
  (d.self, (d.retrievedFrom (some uri)).located.map fun here => here.target?.bind (·.document))

theorem outline_of_sharedReading (h : sharedReading.document? uri = some d) :
    outline uri d = (none, [none]) := by
  obtain rfl := eq_of_sharedReading_isSome (isSome_of_document? h)
  have houtline : (sharedReading.document? "file:///shared.yaml").map
      (outline "file:///shared.yaml") = some (none, [none]) := by
    decide +kernel
  rw [h] at houtline
  exact Option.some.inj houtline

theorem settled_shared : Settled sharedReading apiDocument := by
  have hasked : ∀ uri, Asked sharedReading apiDocument uri → uri = "file:///shared.yaml" := by
    rintro uri ⟨here, t, hhere, ht, hd⟩
    have hhere' : here.target?.bind (·.document) = some uri := by rw [ht]; exact hd
    cases hhere with
    | listed hx =>
      have hlisted : ∀ x ∈ Route.listedItems apiDocument.paths apiDocument.webhooks,
          ({ item := x.2.2, origin := apiDocument.origin } : Located).target?.bind (·.document) =
            some "file:///shared.yaml" := by
        decide +kernel
      rw [hlisted _ hx] at hhere'
      exact (Option.some.inj hhere').symm
    | own h => cases h
    | read hread h =>
      have hnone := List.mem_map_of_mem (f := fun here => here.target?.bind (·.document)) h
      rw [(Prod.mk.inj (outline_of_sharedReading hread)).2, hhere'] at hnone
      cases List.mem_singleton.mp hnone
  refine .of_normal (fun {uri} h => ?_) (fun {uri d'} h => ?_) fun {uri} h => ?_
  · obtain rfl := eq_of_sharedReading_isSome h
    decide +kernel
  · exact (Prod.mk.inj (outline_of_sharedReading h)).1
  · obtain rfl := hasked uri h
    decide +kernel

/-- The document is read for its path item, and not if it was registered beforehand. -/
theorem operations_preloaded_shared :
    ∃ start, sharedReading.preload ["file:///shared.yaml"] = .ok start ∧
      ∃ routes r r', sharedReading.run apiDocument 2 {} =
          ((.ok routes, r), ["file:///shared.yaml"]) ∧
        sharedReading.run apiDocument 2 start = ((.ok routes, r'), []) ∧
        History sharedReading start r' [] ∧ routes.map (·.path) = ["/users"] := by
  have hcanonical : Canonical "file:///shared.yaml" := ⟨by decide +kernel, by decide +kernel⟩
  obtain ⟨start, hstart, result, r, reads, r', reads', hrun, hrun', -, hhistory⟩ :=
    operations_preloaded settled_shared (List.nodup_singleton "file:///shared.yaml")
      (fun uri h => List.mem_singleton.mp h ▸ hcanonical)
      (fun uri h => List.mem_singleton.mp h ▸ by decide +kernel) 2
  have hlisted : ((sharedReading.run apiDocument 2 {}).1.1.toOption.map (·.map (·.path)),
      (sharedReading.run apiDocument 2 {}).2) = (some ["/users"], ["file:///shared.yaml"]) := by
    decide +kernel
  have hspared : (sharedReading.preload ["file:///shared.yaml"]).toOption.map
      (fun start => (sharedReading.run apiDocument 2 start).2) = some [] := by
    decide +kernel
  rw [hrun] at hlisted
  rw [hstart] at hspared
  have hspared : (sharedReading.run apiDocument 2 start).2 = [] := Option.some.inj hspared
  rw [hrun'] at hspared
  obtain rfl : reads' = [] := hspared
  obtain ⟨hroutes, rfl⟩ := Prod.mk.inj hlisted
  cases result with
  | error e => cases hroutes
  | ok routes =>
    exact ⟨start, hstart, routes, r, r', hrun, hrun', hhistory, Option.some.inj hroutes⟩

end Command.Operations

end OpenApi
