import OpenApi.Proofs.Registry
import OpenApi.Proofs.Result

/-!
# Runs of registrations

Documents are registered one after another, as YAML texts, as values or as they were read before,
and some of them are refused. A registry keeps its entries in a list and their names in a map of
positions. It answers as the list alone would: a document is appended unless it has a name of one
before (`entriesAfter`), and a look-up finds the entry with the name.

* `Call.registry_of_error`: a call that is refused leaves the registry as it was;
* `Sound.entries_attempt`: one call does to the entries what `entriesAfter` does;
* `Reached.entries_foldl_attempt`: a run of calls has the entries that `entriesAfter` leaves, in
  order;
* `after_calls`: what every run keeps, refuses and finds again.
-/

namespace OpenApi.Registry

open Reference (stripFragment resolveAgainst)

/-! ## Calls -/

/-- What a document is registered from. -/
inductive Source where
  | yaml (text : String)
  | value (v : Json.Value)
  | document (d : Document)

/-- The document of a source, or why there is none. -/
def Source.read : Source → Except DocumentFault Document
  | .yaml text => Document.ofYaml text
  | .value v => Document.ofValue v
  | .document d => .ok d

/-- A document to register, and where it was retrieved from. -/
structure Call where
  retrieval : String
  source : Source

/-- What a call comes to. -/
def Call.run (c : Call) (r : Registry) : Registration :=
  match c.source with
  | .yaml text => r.registerYaml c.retrieval text
  | .value v => r.registerValue c.retrieval v
  | .document d => r.register c.retrieval d

/-- The registry after a call, whether the call is refused or not. -/
def attempt (r : Registry) (c : Call) : Registry := (c.run r).registry

/-- The registry after calls, from the one without documents. -/
def after (calls : List Call) : Registry := calls.foldl Registry.attempt {}

/-- A name of an entry: where its document is from, in either form, or its base, each without
fragment and not empty. -/
def Entry.Named (e : Entry) (name : String) : Prop :=
  name ≠ "" ∧ (name = stripFragment e.retrieval ∨
    name = stripFragment (resolveAgainst e.retrieval none) ∨ e.base.map stripFragment = some name)

/-- An entry has a name of one of others. -/
def Entry.Clashes (e : Entry) (entries : List Entry) : Prop :=
  ∃ name, e.Named name ∧ ∃ e' ∈ entries, e'.Named name

theorem Entry.mem_names_iff {e : Entry} {name : String} : name ∈ e.names ↔ e.Named name := by
  simp only [Entry.names, List.mem_eraseDups, List.mem_filter, List.mem_filterMap, List.mem_cons,
    List.not_mem_nil, or_false, Bool.not_eq_true', Entry.Named]
  rw [and_comm]
  refine and_congr ?_ ?_
  · rw [← Bool.not_eq_true, String.isEmpty_iff]
  · simp only [exists_eq_or_imp, exists_eq_left, Option.map_some, Option.some.injEq,
      eq_comm (b := name)]

instance (e : Entry) (entries : List Entry) : Decidable (e.Clashes entries) :=
  decidable_of_iff (∃ name ∈ e.names, ∃ e' ∈ entries, name ∈ e'.names) <| by
    simp only [Entry.mem_names_iff, Entry.Clashes]

/-- The entries after a call, given those before: a document that is read is appended, unless it
clashes with them. -/
def entriesAfter (entries : List Entry) (c : Call) : List Entry :=
  match c.source.read with
  | .error _ => entries
  | .ok d =>
    if (Entry.of c.retrieval d).Clashes entries then entries
    else entries ++ [Entry.of c.retrieval d]

/-! ## One call -/

theorem Call.run_eq (c : Call) (r : Registry) :
    c.run r = r.registerRead c.retrieval c.source.read := by
  cases h : c.source <;>
    simp only [run, h, registerYaml, registerValue, registerRead, Source.read]

/-- What is not read is refused, and the registry is as it was. -/
theorem Call.run_of_error {c : Call} {fault : DocumentFault} (h : c.source.read = .error fault)
    (r : Registry) : c.run r = { result := .error (.document fault), registry := r } := by
  rw [run_eq, h, registerRead]

theorem Call.run_of_ok {c : Call} {d : Document} (h : c.source.read = .ok d) (r : Registry) :
    c.run r = r.register c.retrieval d := by
  rw [run_eq, h, registerRead]

/-- A call that is refused leaves the registry as it was. -/
theorem Call.registry_of_error {c : Call} {r : Registry} {fault : Fault}
    (h : (c.run r).result = .error fault) : (c.run r).registry = r := by
  cases hd : c.source.read with
  | error => rw [run_of_error hd]
  | ok d =>
    rw [run_of_ok hd] at h ⊢
    rcases r.register_cases c.retrieval d with ⟨-, hr⟩ | ⟨_, _, -, hr⟩
    · rw [hr] at h
      cases h
    · rw [hr]

/-- A name stands for the position of the entry that has it. -/
theorem Sound.alias_iff {r : Registry} (h : r.Sound) {name : String} {i : Nat} :
    r.aliases.get? name = some i ↔ ∃ e, r.entries[i]? = some e ∧ e.Named name := by
  simp only [← Entry.mem_names_iff]
  exact ⟨h.stands, fun ⟨_, he, hn⟩ => h.named he hn⟩

/-- No name of an entry is taken exactly if the entry clashes with none before. -/
theorem Sound.taken?_eq_none {r : Registry} (h : r.Sound) {e : Entry} :
    r.taken? e.names = none ↔ ¬ e.Clashes r.entries := by
  rw [h.taken?_eq_none_iff]
  constructor
  · rintro free ⟨name, hn, e', he', hn'⟩
    obtain ⟨i, hi⟩ := List.mem_iff_getElem?.mp he'
    have htaken := h.named hi (Entry.mem_names_iff.mpr hn')
    rw [free name (Entry.mem_names_iff.mpr hn)] at htaken
    cases htaken
  · intro free name hn
    cases hi : r.aliases.get? name with
    | none => rfl
    | some i =>
      obtain ⟨e', he', hn'⟩ := h.alias_iff.mp hi
      exact absurd ⟨name, Entry.mem_names_iff.mp hn, e', List.mem_of_getElem? he', hn'⟩ free

/-- A document that clashes with no entry is appended. -/
theorem Sound.register_of_not_clashes {r : Registry} (h : r.Sound) {retrieval : String}
    {d : Document} (hfree : ¬ (Entry.of retrieval d).Clashes r.entries) :
    r.register retrieval d = { result := .ok (), registry := r.push (Entry.of retrieval d) } := by
  rcases r.register_cases retrieval d with ⟨-, hr⟩ | ⟨_, _, htaken, -⟩
  · exact hr
  · rw [h.taken?_eq_none.mpr hfree] at htaken
    cases htaken

/-- A document that was read is refused exactly if it clashes with an entry. -/
theorem Sound.run_eq_error_iff {r : Registry} (h : r.Sound) {c : Call} {d : Document}
    (hd : c.source.read = .ok d) :
    (∃ fault, (c.run r).result = .error fault) ↔ (Entry.of c.retrieval d).Clashes r.entries := by
  rw [Call.run_of_ok hd]
  rcases r.register_cases c.retrieval d with ⟨hfree, hr⟩ | ⟨_, _, htaken, hr⟩
  · refine iff_of_false ?_ (h.taken?_eq_none.mp hfree)
    rw [hr]
    rintro ⟨fault, hfault⟩
    cases hfault
  · refine iff_of_true ⟨_, by rw [hr]⟩ (not_not.mp fun hfree => ?_)
    rw [h.taken?_eq_none.mpr hfree] at htaken
    cases htaken

theorem Reached.attempt {r : Registry} (h : r.Reached) (c : Call) : (r.attempt c).Reached := by
  rw [Registry.attempt]
  cases hd : c.source.read with
  | error fault => rwa [Call.run_of_error hd]
  | ok d =>
    rw [Call.run_of_ok hd]
    exact h.register

/-- A call does to the entries what the list alone tells. -/
theorem Sound.entries_attempt {r : Registry} (h : r.Sound) (c : Call) :
    (r.attempt c).entries = entriesAfter r.entries c := by
  rw [attempt]
  cases hd : c.source.read with
  | error fault => rw [Call.run_of_error hd, entriesAfter, hd]
  | ok d =>
    simp only [entriesAfter, hd]
    split
    next hclash =>
      obtain ⟨fault, hr⟩ := (h.run_eq_error_iff hd).mpr hclash
      rw [Call.registry_of_error hr]
    next hfree =>
      rw [Call.run_of_ok hd, h.register_of_not_clashes hfree]
      rfl

/-! ## Runs -/

theorem after_append (calls later : List Call) :
    after (calls ++ later) = later.foldl Registry.attempt (after calls) := List.foldl_append

theorem Reached.foldl_attempt {r : Registry} (h : r.Reached) (calls : List Call) :
    (calls.foldl Registry.attempt r).Reached := by
  induction calls generalizing r with
  | nil => exact h
  | cons c calls ih => exact ih (h.attempt c)

theorem reached_after (calls : List Call) : (after calls).Reached :=
  Reached.empty.foldl_attempt calls

/-- A run does to the entries what the list alone tells. -/
theorem Reached.entries_foldl_attempt {r : Registry} (h : r.Reached) (calls : List Call) :
    (calls.foldl Registry.attempt r).entries = calls.foldl entriesAfter r.entries := by
  induction calls generalizing r with
  | nil => rfl
  | cons c calls ih =>
    rw [List.foldl_cons, List.foldl_cons, ih (h.attempt c), h.sound.entries_attempt]

theorem prefix_entriesAfter (entries : List Entry) (c : Call) :
    entries <+: entriesAfter entries c := by
  unfold entriesAfter
  split
  · exact List.prefix_rfl
  · split
    · exact List.prefix_rfl
    · exact List.prefix_append _ _

/-- No call takes an entry away or moves it. -/
theorem prefix_foldl_entriesAfter (entries : List Entry) (calls : List Call) :
    entries <+: calls.foldl entriesAfter entries := by
  induction calls generalizing entries with
  | nil => exact List.prefix_rfl
  | cons c calls ih => exact (prefix_entriesAfter entries c).trans (ih _)

/-- What a call does after others, and what is found of it whatever is registered later. -/
structure Outcome (calls : List Call) (c : Call) : Prop where
  unread {fault : DocumentFault} : c.source.read = .error fault →
    (c.run (after calls)).result = .error (.document fault)
  refused {d : Document} : c.source.read = .ok d →
    ((∃ fault, (c.run (after calls)).result = .error fault) ↔
      (Entry.of c.retrieval d).Clashes (after calls).entries)
  kept {fault : Fault} : (c.run (after calls)).result = .error fault →
    (c.run (after calls)).registry = after calls ∧ after (calls ++ [c]) = after calls
  appended {d : Document} (later : List Call) : c.source.read = .ok d →
    (c.run (after calls)).result = .ok () →
    (after calls).entries ++ [Entry.of c.retrieval d] <+: (after (calls ++ c :: later)).entries
  retrieval {d : Document} (later : List Call) : c.source.read = .ok d →
    (c.run (after calls)).result = .ok () → stripFragment c.retrieval ≠ "" →
    (after (calls ++ c :: later)).get? c.retrieval = some (Entry.of c.retrieval d)
  base {d : Document} {base : String} (later : List Call) : c.source.read = .ok d →
    (c.run (after calls)).result = .ok () → (Entry.of c.retrieval d).base = some base →
    stripFragment base ≠ "" →
    (after (calls ++ c :: later)).get? base = some (Entry.of c.retrieval d)

theorem outcome (calls : List Call) (c : Call) : Outcome calls c := by
  have hs := (reached_after calls).sound
  have appended {d : Document} (later : List Call) (hd : c.source.read = .ok d)
      (hr : (c.run (after calls)).result = .ok ()) :
      (after calls).entries ++ [Entry.of c.retrieval d] <+:
        (after (calls ++ c :: later)).entries := by
    have hfree : ¬ (Entry.of c.retrieval d).Clashes (after calls).entries := by
      rw [← hs.run_eq_error_iff hd, hr]
      rintro ⟨fault, he⟩
      cases he
    have hafter : entriesAfter (after calls).entries c =
        (after calls).entries ++ [Entry.of c.retrieval d] := by
      simp only [entriesAfter, hd, hfree, ↓reduceIte]
    rw [after_append, (reached_after calls).entries_foldl_attempt, List.foldl_cons, hafter]
    exact prefix_foldl_entriesAfter _ later
  have found {d : Document} {uri : String} (later : List Call) (hd : c.source.read = .ok d)
      (hr : (c.run (after calls)).result = .ok ())
      (hn : (Entry.of c.retrieval d).Named (stripFragment uri)) :
      (after (calls ++ c :: later)).get? uri = some (Entry.of c.retrieval d) := by
    have hmem : Entry.of c.retrieval d ∈ (after (calls ++ c :: later)).entries :=
      (appended later hd hr).mem (List.mem_append_right _ List.mem_cons_self)
    exact (reached_after _).sound.named?_of_mem_names hmem (Entry.mem_names_iff.mpr hn)
  exact {
    unread := fun h => by rw [Call.run_of_error h]
    refused := hs.run_eq_error_iff
    kept := fun h => by
      have hkept := Call.registry_of_error h
      exact ⟨hkept, (after_append calls [c]).trans hkept⟩
    appended := appended
    retrieval := fun later hd hr hne => found later hd hr ⟨hne, .inl rfl⟩
    base := fun later hd hr hb hne => found later hd hr ⟨hne, .inr (.inr (by rw [hb]; rfl))⟩ }

/-- After every run of calls a name stands for the one entry that has it, and the entries are those
that the calls leave in order, names apart. A further call is refused exactly if its document is not
read or clashes with an entry, changes nothing then, and is found again for ever if it is not
refused. -/
theorem after_calls (calls : List Call) :
    (∀ name i, (after calls).aliases.get? name = some i ↔
      ∃ e, (after calls).entries[i]? = some e ∧ e.Named name) ∧
    (after calls).entries = calls.foldl entriesAfter [] ∧
    ∀ c, Outcome calls c :=
  ⟨fun _ _ => (reached_after calls).sound.alias_iff, Reached.empty.entries_foldl_attempt calls,
    outcome calls⟩

/-- A document that names itself. -/
def sharedSelf : Document where
  openapi := some "3.2.0"
  self := some "https://example.com/shared.yaml"

/-- A call that registers the document. -/
def sharedCall : Call where
  retrieval := "file:///specs/shared.yaml"
  source := .document sharedSelf

/-- A call with a copy of the document from somewhere else. -/
def copyCall : Call where
  retrieval := "file:///specs/copy.yaml"
  source := .document sharedSelf

/-- A call with a document of an older version. -/
def olderCall : Call where
  retrieval := "file:///specs/older.yaml"
  source := .value (.object [("swagger", .string "2.0")])

/-- A copy is refused for the name that it gives itself, and so is what is not read; the document is
found under that name afterwards. -/
theorem after_calls_copy :
    (∃ fault, (copyCall.run (after [sharedCall])).result = .error fault) ∧
    (copyCall.run (after [sharedCall])).registry = after [sharedCall] ∧
    after [sharedCall, copyCall] = after [sharedCall] ∧
    (olderCall.run (after [sharedCall, copyCall])).result = .error (.document (.swagger "2.0")) ∧
    (after [sharedCall, copyCall, olderCall]).get? "https://example.com/shared.yaml" =
      some (Entry.of sharedCall.retrieval sharedSelf) := by
  have first := (after_calls []).2.2 sharedCall
  have second := (after_calls [sharedCall]).2.2 copyCall
  have third := (after_calls [sharedCall, copyCall]).2.2 olderCall
  have hrefused : ∃ fault, (copyCall.run (after [sharedCall])).result = .error fault :=
    (second.refused rfl).mpr (by decide +kernel)
  obtain ⟨hregistry, hafter⟩ := second.kept hrefused.choose_spec
  refine ⟨hrefused, hregistry, hafter, third.unread (by rfl), ?_⟩
  cases hr : (sharedCall.run (after [])).result with
  | error fault => exact absurd ((first.refused rfl).mp ⟨fault, hr⟩) (by decide +kernel)
  | ok =>
    exact first.base [copyCall, olderCall] rfl hr (by decide +kernel) (by decide +kernel)

end OpenApi.Registry
