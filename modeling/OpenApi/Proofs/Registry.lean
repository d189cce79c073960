import OpenApi.Proofs.OrderedMap
import OpenApi.Registry

/-!
# Registered documents

The registries that registering documents leads to, whatever was refused on the way
(`Registry.Reached`), and what holds of all of them (`Registry.Sound`): every name of an entry
stands for that entry, and a name stands for nothing else.

* `register_cases`: what registering a document does;
* `Reached.sound`: registering keeps this;
* `Sound.named?_base`: the base of an entry leads back to the entry;
* `Sound.named?_empty`: no document is known under an empty name.
-/

namespace OpenApi.Registry

/-- The registries that registering documents leads to, whether they are refused or not. -/
inductive Reached : Registry → Prop
  | empty : Reached {}
  | register {r : Registry} {retrieval : String} {d : Document} :
    Reached r → Reached (r.register retrieval d).registry

/-- The entry of a document that was retrieved from somewhere. -/
def Entry.of (retrieval : String) (d : Document) : Entry where
  retrieval
  base := (d.retrievedFrom (some retrieval)).base?
  document := d.retrievedFrom (some retrieval)

/-- The names and the entries of a registry agree. -/
structure Sound (r : Registry) : Prop where
  named {i : Nat} {e : Entry} {name : String} :
    r.entries[i]? = some e → name ∈ e.names → r.aliases.get? name = some i
  stands {name : String} {i : Nat} :
    r.aliases.get? name = some i → ∃ e, r.entries[i]? = some e ∧ name ∈ e.names
  /-- The base of an entry is that of its document, which has one. -/
  base {e : Entry} : e ∈ r.entries → e.base = e.document.base? ∧ e.base.isSome

/-! ## Names -/

theorem Entry.ne_empty_of_mem_names {e : Entry} {name : String} (h : name ∈ e.names) :
    name ≠ "" := by
  simp only [Entry.names, List.mem_eraseDups, List.mem_filter] at h
  rintro rfl
  exact absurd h.2 (by decide)

theorem Entry.base_mem_names {e : Entry} {base : String} (h : e.base = some base)
    (hne : Reference.stripFragment base ≠ "") : Reference.stripFragment base ∈ e.names := by
  simp only [Entry.names, List.mem_eraseDups, List.mem_filter, List.mem_filterMap, h]
  refine ⟨⟨some base, by simp, rfl⟩, ?_⟩
  simpa [String.isEmpty_iff] using hne

/-! ## Registering -/

/-- No name is taken exactly if none stands for an entry. -/
theorem Sound.taken?_eq_none_iff {r : Registry} (h : r.Sound) {names : List String} :
    r.taken? names = none ↔ ∀ name ∈ names, r.aliases.get? name = none := by
  simp only [taken?, List.findSome?_eq_none_iff]
  refine forall₂_congr fun name _ => ?_
  cases hi : r.aliases.get? name with
  | none => simp
  | some i =>
    obtain ⟨e, he, -⟩ := h.stands hi
    simp [he]

theorem Sound.empty : Sound {} where
  named h := by simp at h
  stands h := by cases h
  base h := by cases h

/-- Appending an entry whose names are free. -/
theorem Sound.push {r : Registry} (h : r.Sound) {e : Entry}
    (free : ∀ name ∈ e.names, r.aliases.get? name = none)
    (hb : e.base = e.document.base? ∧ e.base.isSome) : (r.push e).Sound := by
  have keys : (e.names.map (·, r.entries.length)).map Prod.fst = e.names := by
    simp [Function.comp_def]
  have aliases : (r.push e).aliases = r.aliases.insertAll (e.names.map (·, r.entries.length)) := by
    rw [Registry.push]
  have old : ∀ {name}, name ∉ e.names → (r.push e).aliases.get? name = r.aliases.get? name :=
    fun hn => by
      rw [aliases]
      exact OrderedMap.get?_insertAll_of_notMem (by rw [keys]; exact hn)
  have new : ∀ {name}, name ∈ e.names → (r.push e).aliases.get? name = some r.entries.length :=
    fun hn => by
      rw [aliases, OrderedMap.get?_insertAll, ← List.map_reverse,
        Entries.get?_map_const _ (List.mem_reverse.mpr hn), Option.some_or]
  refine ⟨fun {i e' name} hi hn => ?_, fun {name i} hi => ?_, fun {e'} he => ?_⟩
  · rcases Nat.lt_or_ge i r.entries.length with hlt | hge
    · have hi : r.entries[i]? = some e' := by
        rw [← hi]; exact (List.getElem?_append_left hlt).symm
      have hname := h.named hi hn
      have hnot : name ∉ e.names := fun hm => by
        rw [free name hm] at hname
        cases hname
      rw [old hnot, hname]
    · have hi : [e][i - r.entries.length]? = some e' := by
        rw [← hi]; exact (List.getElem?_append_right hge).symm
      obtain ⟨hz, he⟩ := List.getElem?_eq_some_iff.mp hi
      simp only [List.length_singleton] at hz
      have hz : i = r.entries.length := by omega
      subst hz
      simp only [Nat.sub_self, List.getElem_cons_zero] at he
      subst he
      exact new hn
  · by_cases hn : name ∈ e.names
    · rw [new hn] at hi
      cases hi
      exact ⟨e, List.getElem?_concat_length, hn⟩
    · rw [old hn] at hi
      obtain ⟨e', he', hn'⟩ := h.stands hi
      refine ⟨e', ?_, hn'⟩
      rw [← he']
      exact List.getElem?_append_left (List.getElem?_eq_some_iff.mp he').1
  · rcases List.mem_append.mp he with he | he
    · exact h.base he
    · rw [List.mem_singleton.mp he]; exact hb

/-- A document is appended if its names are free. Otherwise it is refused, and the registry is as it
was. -/
theorem register_cases (r : Registry) (retrieval : String) (d : Document) :
    (r.taken? (Entry.of retrieval d).names = none ∧
      r.register retrieval d =
        { result := .ok (), registry := r.push (Entry.of retrieval d) }) ∨
    ∃ name other, r.taken? (Entry.of retrieval d).names = some (name, other) ∧
      r.register retrieval d = { result := .error (.collision name other), registry := r } := by
  simp only [Registry.register, Entry.of]
  split
  next name other h => exact .inr ⟨name, other, h, rfl⟩
  next h => exact .inl ⟨h, rfl⟩

theorem isSome_base?_retrievedFrom (d : Document) (retrieval : String) :
    (d.retrievedFrom (some retrieval)).base?.isSome := by
  simp only [Document.base?, Document.retrievedFrom]
  split <;> simp_all

theorem Sound.register {r : Registry} (h : r.Sound) {retrieval : String} {d : Document} :
    (r.register retrieval d).registry.Sound := by
  rcases r.register_cases retrieval d with ⟨hfree, hr⟩ | ⟨_, _, -, hr⟩
  · rw [hr]
    exact h.push (h.taken?_eq_none_iff.mp hfree) ⟨rfl, isSome_base?_retrievedFrom d retrieval⟩
  · rw [hr]
    exact h

theorem Reached.sound {r : Registry} (h : r.Reached) : r.Sound := by
  induction h with
  | empty => exact Sound.empty
  | register _ ih => exact ih.register

/-! ## Looking up -/

/-- The document with a name without fragment. -/
def named? (r : Registry) (name : String) : Option Entry :=
  ((r.aliases.get? name).or (r.aliases.get? (Reference.resolveAgainst name none))).bind
    fun position => r.entries[position]?

theorem get?_eq_named? (r : Registry) (uri : String) :
    r.get? uri = r.named? (Reference.stripFragment uri) := rfl

theorem mem_of_named? {r : Registry} {name : String} {e : Entry} (h : r.named? name = some e) :
    e ∈ r.entries := by
  obtain ⟨i, -, hi⟩ := Option.bind_eq_some_iff.mp h
  exact List.mem_of_getElem? hi

/-- Every name of an entry leads back to the entry. -/
theorem Sound.named?_of_mem_names {r : Registry} (h : r.Sound) {e : Entry} (he : e ∈ r.entries)
    {name : String} (hn : name ∈ e.names) : r.named? name = some e := by
  obtain ⟨i, hi⟩ := List.mem_iff_getElem?.mp he
  rw [named?, h.named hi hn, Option.some_or, Option.bind_some, hi]

/-- The base of an entry leads back to the entry. -/
theorem Sound.named?_base {r : Registry} (h : r.Sound) {e : Entry} (he : e ∈ r.entries)
    {base : String} (hb : e.base = some base) (hne : Reference.stripFragment base ≠ "") :
    r.named? (Reference.stripFragment base) = some e :=
  h.named?_of_mem_names he (e.base_mem_names hb hne)

/-- No document is known under an empty name. -/
theorem Sound.named?_empty {r : Registry} (h : r.Sound) : r.named? "" = none := by
  have hn : r.aliases.get? "" = none := by
    cases hi : r.aliases.get? "" with
    | none => rfl
    | some i =>
      obtain ⟨e, -, he⟩ := h.stands hi
      exact absurd rfl (Entry.ne_empty_of_mem_names he)
  rw [named?, show Reference.resolveAgainst "" none = "" from rfl, hn]
  rfl

end OpenApi.Registry
