import OpenApi.Proofs.Parameter.Chain
import OpenApi.Proofs.Parameter.Listing

/-!
# Consistent lists of parameters

A list of parameters is accepted exactly if the definitions that its entries stand for have
different keys and are accepted one by one. Headers that are described elsewhere and references
that lead nowhere count for nothing.

* `Entry.survivor?_eq_some_iff`: which entries count, and as which definitions;
* `definitions_eq_survivors`: what is left of a list, entry by entry;
* `resolveAll_consistent`: which lists are accepted, to what, and what is wrong with the others.
-/

namespace OpenApi.Parameter

variable {o : Origin} {entries : List Entry}

/-! ## Entries that count -/

/-- A definition counts unless it is a header that is described elsewhere. -/
def Definition.Counts (d : Definition) : Prop :=
  ¬ (d.location = .header ∧
    Text.asciiLower d.name ∈ ["accept", "content-type", "authorization"])

instance : DecidablePred Definition.Counts := fun _ => inferInstanceAs (Decidable (¬ _))

/-- An entry survives as a definition that counts: an inline one as itself, and a reference as the
definition that it leads to, with the first description from the reference on. -/
inductive Entry.Survives (o : Origin) : Entry → Definition → Prop
  | inline {d : Definition} : d.Counts → Survives o (.inline d) d
  | reference {r : Referrer} {passed : List Referrer} {d : Definition} :
    Leads o r.target passed d → d.Counts → Survives o (.reference r)
      { d with description := ((r :: passed).findSome? Referrer.description).or d.description }

/-- The definition that an entry survives as. -/
def Entry.survivor? (o : Origin) (entry : Entry) : Option Definition :=
  let standsFor : Option Definition :=
    match entry with
    | .inline d => some d
    | .reference r => (follow o r.target).map fun d =>
      { d with description := r.description.or d.description }
  standsFor.filter fun d => d.Counts

/-- The definitions that count, in the order of their entries. -/
def survivors (o : Origin) (entries : List Entry) : List Definition :=
  entries.filterMap (Entry.survivor? o)

theorem Entry.survivor?_eq (o : Origin) (entry : Entry) :
    entry.survivor? o = (entry.definition? o).filter fun d => d.Counts := by
  cases entry <;> rfl

theorem Entry.survivor?_eq_some_iff {entry : Entry} {t : Definition} :
    entry.survivor? o = some t ↔ entry.Survives o t := by
  rw [survivor?_eq, Option.filter_eq_some_iff, decide_eq_true_iff]
  cases entry with
  | inline d =>
    rw [definition?, Option.some.injEq]
    constructor
    · rintro ⟨rfl, hcounts⟩
      exact .inline hcounts
    · rintro ⟨hcounts⟩
      exact ⟨rfl, hcounts⟩
  | reference r =>
    have hdescribe : ∀ passed d, (describeBy passed d).describe r.description =
        describeBy (r :: passed) d := fun passed d => (describeBy_cons r passed d).symm
    rw [definition?, Option.map_eq_some_iff]
    constructor
    · rintro ⟨⟨t', ht', rfl⟩, hcounts⟩
      obtain ⟨passed, d, hleads, rfl⟩ := follow_eq_some_iff.mp ht'
      rw [hdescribe]
      exact .reference hleads hcounts
    · rintro (_ | ⟨hleads, hcounts⟩)
      exact ⟨⟨_, follow_eq_some_iff.mpr ⟨_, _, hleads, rfl⟩, hdescribe _ _⟩, hcounts⟩

theorem definitions_eq_survivors (o : Origin) (entries : List Entry) :
    definitions o entries = survivors o entries := by
  have hignored : (fun d : Definition => !d.isIgnored) = fun d => decide d.Counts := by
    funext d
    by_cases hheader : d.location = .header <;>
      simp [Definition.Counts, Definition.isIgnored, ignoredHeaders, hheader]
  have hsurvivor :
      Entry.survivor? o = fun entry => (entry.definition? o).filter fun d => d.Counts :=
    funext fun entry => entry.survivor?_eq o
  rw [definitions, survivors, List.filter_filterMap, hignored, hsurvivor]

/-- Entries that do not count may be left out. -/
theorem survivors_filter (o : Origin) (entries : List Entry) :
    survivors o (entries.filter fun entry => (entry.survivor? o).isSome) = survivors o entries := by
  rw [survivors, survivors, List.filterMap_filter]
  refine List.filterMap_congr fun entry _ => ?_
  cases h : entry.survivor? o <;> rfl

/-! ## Lists -/

/-- Definitions of different keys, each of which is accepted. -/
structure Consistent (c : Components) (ds : List Definition) : Prop where
  distinct : (ds.map Definition.key).Nodup
  accepted : ∀ d ∈ ds, ∃ p, d.resolve c = .ok p

theorem exists_resolveAfter_iff {c : Components} {ds : List Definition} :
    (∃ ps, resolveAfter c [] ds = .ok ps) ↔ Consistent c ds := by
  have hok : ∀ {α : Type} (x : Except Invalid α), (∃ a, x = .ok a) ↔ ¬ ∃ e, x = .error e := by
    intro α x
    rw [exists_error_iff, not_forall_not]
  have haccepted : (∃ ps, List.Forall₂ (fun d p => d.resolve c = .ok p) ds ps) ↔
      ∀ d ∈ ds, ∃ p, d.resolve c = .ok p := by
    simp only [← mapM_eq_ok_iff, hok, exists_error_mapM_iff, not_exists, not_and]
  simp only [resolveAfter_eq_ok_iff, List.not_mem_nil, not_false_eq_true, implies_true, true_and,
    exists_and_left, haccepted]
  exact ⟨fun h => ⟨h.1, h.2⟩, fun h => ⟨h.distinct, h.accepted⟩⟩

/-- A list is accepted exactly if the definitions that its entries survive as are consistent, and
then each of them is resolved by itself. Otherwise it is refused for the first one that repeats
a key or, with a new key, is not accepted. Entries that do not survive have no part in this. -/
theorem resolveAll_consistent (o : Origin) (entries : List Entry) :
    (∀ (entry : Entry) d, entry.survivor? o = some d ↔ entry.Survives o d) ∧
    ((∃ ps, resolveAll o entries = .ok ps) ↔ Consistent o.components (survivors o entries)) ∧
    (∀ ps, resolveAll o entries = .ok ps ↔ Consistent o.components (survivors o entries) ∧
      List.Forall₂ (fun d p => d.resolve o.components = .ok p) (survivors o entries) ps) ∧
    (∀ e, resolveAll o entries = .error e ↔ ∃ before d after,
      survivors o entries = before ++ d :: after ∧ Consistent o.components before ∧
        (d.key ∈ before.map Definition.key ∧
            e = { name := d.name, fault := .declaredTwice d.location } ∨
          d.key ∉ before.map Definition.key ∧ d.resolve o.components = .error e)) ∧
    resolveAll o (entries.filter fun entry => (entry.survivor? o).isSome) =
      resolveAll o entries := by
  have hall : ∀ entries,
      resolveAll o entries = resolveAfter o.components [] (survivors o entries) :=
    fun entries => by rw [resolveAll, definitions_eq_survivors]
  rw [hall, hall, survivors_filter]
  refine ⟨fun _ _ => Entry.survivor?_eq_some_iff, exists_resolveAfter_iff, fun ps => ?_,
    fun e => ?_, rfl⟩
  · constructor
    · intro h
      exact ⟨exists_resolveAfter_iff.mp ⟨ps, h⟩, (resolveAfter_eq_ok_iff.mp h).2.2⟩
    · rintro ⟨hconsistent, hps⟩
      exact resolveAfter_eq_ok_iff.mpr ⟨fun _ _ => List.not_mem_nil, hconsistent.distinct, hps⟩
  · simp only [resolveAfter_eq_error_iff, exists_resolveAfter_iff, List.append_nil]
    rfl

/-- Two parameters of one name, and another key for the second. -/
def twins : Origin where
  self := some "http://a/x"
  components := { parameters := .ofList [
    ("Limit", .inline { name := "limit", location := .query, schema := some (.object []) }),
    ("Twin", .inline { name := "limit", location := .query, schema := some (.bool true) }),
    ("Alias", .reference { target := "x#/components/parameters/Twin" })] }

/-- References to both, with another parameter between them, and two entries that do not survive. -/
def twinEntries : List Entry := [
  .reference { target := "#/components/parameters/Missing" },
  .reference { target := "#/components/parameters/Limit", description := some "first" },
  .inline { name := "Accept", location := .header },
  .inline { name := "q", location := .query, schema := some (.object []) },
  .reference { target := "#/components/parameters/Alias" }]

/-- Three entries survive, and the last of them has the name of the first behind two references. -/
theorem resolveAll_consistent_twins :
    (survivors twins twinEntries).map Definition.key =
      [(.query, "limit"), (.query, "q"), (.query, "limit")] ∧
    (∃ d, Entry.Survives twins (.reference { target := "#/components/parameters/Alias" }) d) ∧
    resolveAll twins twinEntries = .error { name := "limit", fault := .declaredTwice .query } ∧
    resolveAll twins (twinEntries.filter fun entry => (entry.survivor? twins).isSome) =
      .error { name := "limit", fault := .declaredTwice .query } := by
  obtain ⟨hsurvives, -, -, herror, hfilter⟩ := resolveAll_consistent twins twinEntries
  have hkeys : (survivors twins twinEntries).map Definition.key =
      [(.query, "limit"), (.query, "q"), (.query, "limit")] := by
    decide +kernel
  have haccepted : ∀ d ∈ survivors twins twinEntries,
      (d.resolve twins.components).isOk = true := by
    decide +kernel
  have halias : ∃ d,
      Entry.survivor? twins (.reference { target := "#/components/parameters/Alias" }) = some d :=
    Option.isSome_iff_exists.mp (by decide +kernel)
  have hrefused : resolveAll twins twinEntries =
      .error { name := "limit", fault := .declaredTwice .query } := by
    obtain ⟨first, second, third, hsurvivors⟩ :
        ∃ a b c, survivors twins twinEntries = [a, b, c] := by
      rw [← List.length_eq_three]
      exact (List.length_map _).symm.trans (congrArg List.length hkeys)
    rw [hsurvivors] at hkeys haccepted
    simp only [List.map_cons, List.map_nil, List.cons.injEq, and_true] at hkeys
    obtain ⟨hfirst, hsecond, hthird⟩ := hkeys
    refine (herror _).mpr ⟨[first, second], third, [], hsurvivors, ⟨?_, fun d hd => ?_⟩, .inl ?_⟩
    · simp [hfirst, hsecond]
    · exact exists_of_isOk (haccepted d (List.mem_append_left [third] hd))
    · obtain ⟨hlocation, hname⟩ := Prod.mk.inj hthird
      simp [hfirst, hthird, hlocation, hname]
  exact ⟨hkeys, halias.imp fun d hd => (hsurvives _ d).mp hd, hrefused, hfilter.trans hrefused⟩

end OpenApi.Parameter
