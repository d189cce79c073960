import Mathlib.Data.List.Perm.Subperm
import Mathlib.Order.WellFounded
import OpenApi.Parameter.Listing
import OpenApi.Proofs.OrderedMap
import OpenApi.Proofs.Result

/-!
# Chains of parameter references

What following references to parameters comes to when no key is kept in mind: a definition at the
end of a chain (`Leads`), a reference that names no entry (`Breaks`), or neither (`Endless`).

A key is met twice only where the chain has no end, since the entry under a key decides what comes
after it. So keeping keys in mind stops no chain that ends.

* `Leads.followBelow`: a chain that ends is followed to its end, however long it is;
* `leads_of_followBelow`: what is found is the end of a chain, with the first description on the
  way there;
* `not_leads_iff`: a reference that leads to no definition breaks or never ends;
* `follow_chain`: the three together, for a reference and for an entry of a list.
-/

namespace OpenApi.Parameter

variable {o : Origin} {reference key : String} {entry : Entry} {d t : Definition}
  {next : Referrer} {passed : List Referrer} {visited : List String} {fuel : Nat}

/-! ## Following without memory -/

/-- A reference names an entry: it is a component reference for parameters, it has no document or
one that is the document it is written in, and there is an entry under its key. -/
structure Names (o : Origin) (reference key : String) (entry : Entry) : Prop where
  written : ∃ document, Reference.component? reference "parameters" = some { document, key } ∧
    ∀ name, document = some name → ∃ self, o.self = some self ∧
      Reference.sameDocument (Reference.resolveAgainst name (some self)) self
  found : o.components.parameters.get? key = some entry

/-- A reference leads to a definition past the references in its way. -/
inductive Leads (o : Origin) : String → List Referrer → Definition → Prop
  | inline {reference key : String} {d : Definition} : Names o reference key (.inline d) →
    Leads o reference [] d
  | reference {reference key : String} {next : Referrer} {passed : List Referrer}
    {d : Definition} : Names o reference key (.reference next) → Leads o next.target passed d →
    Leads o reference (next :: passed) d

/-- A reference names another one. -/
def Continues (o : Origin) (reference target : String) : Prop :=
  ∃ key next, Names o reference key (.reference next) ∧ next.target = target

/-- Following references comes to one that names no entry. -/
inductive Breaks (o : Origin) : String → Prop
  | nowhere {reference : String} : (∀ key entry, ¬ Names o reference key entry) →
    Breaks o reference
  | reference {reference target : String} : Continues o reference target → Breaks o target →
    Breaks o reference

/-- Following references never ends. -/
def Endless (o : Origin) (reference : String) : Prop :=
  ∃ path : Nat → String, path 0 = reference ∧ ∀ n, Continues o (path n) (path (n + 1))

theorem owns_iff {r : Reference.Component} : o.owns r = true ↔
    ∀ name, r.document = some name → ∃ self, o.self = some self ∧
      Reference.sameDocument (Reference.resolveAgainst name (some self)) self := by
  rw [Origin.owns]
  cases hd : r.document with
  | none => simp
  | some document =>
    cases hs : o.self <;> simp [Origin.isSelf, Origin.resolve, hs]

theorem entry?_eq_some_iff :
    entry? o reference = some (key, entry) ↔ Names o reference key entry := by
  unfold entry?
  constructor
  · intro h
    split at h
    next => cases h
    next r hr =>
      split at h
      next howns =>
        obtain ⟨_, hget, he⟩ := Option.map_eq_some_iff.mp h
        cases he
        exact ⟨⟨r.document, hr, owns_iff.mp howns⟩, hget⟩
      next => cases h
  · rintro ⟨⟨document, hr, howns⟩, hget⟩
    have howns : o.owns { document, key } = true := owns_iff.mpr howns
    rw [hr]
    simp only [howns, if_true, hget, Option.map_some]

theorem Names.unique {key' : String} {entry' : Entry} (h : Names o reference key entry)
    (h' : Names o reference key' entry') : key = key' ∧ entry = entry' := by
  rw [← entry?_eq_some_iff] at h h'
  exact Prod.mk.inj (Option.some.inj (h.symm.trans h'))

theorem Leads.unique {passed' : List Referrer} {d' : Definition} (h : Leads o reference passed d)
    (h' : Leads o reference passed' d') : passed = passed' ∧ d = d' := by
  induction h generalizing passed' with
  | inline hd =>
    cases h' with
    | inline hd' =>
      cases (hd.unique hd').2
      exact ⟨rfl, rfl⟩
    | reference hn => cases (hd.unique hn).2
  | reference hn _ ih =>
    cases h' with
    | inline hd => cases (hn.unique hd).2
    | reference hn' h' =>
      cases (hn.unique hn').2
      obtain ⟨rfl, rfl⟩ := ih h'
      exact ⟨rfl, rfl⟩

theorem Leads.not_breaks (h : Leads o reference passed d) : ¬ Breaks o reference := by
  induction h with
  | inline hd =>
    rintro (hnone | ⟨⟨_, _, hn, -⟩, -⟩)
    · exact hnone _ _ hd
    · cases (hd.unique hn).2
  | reference hn _ ih =>
    rintro (hnone | ⟨⟨_, _, hn', rfl⟩, hbreaks⟩)
    · exact hnone _ _ hn
    · cases (hn.unique hn').2
      exact ih hbreaks

theorem endless_iff : Endless o reference ↔ ¬ Acc (flip (Continues o)) reference := by
  rw [not_acc_iff_exists_descending_chain]
  rfl

theorem Leads.not_endless (h : Leads o reference passed d) : ¬ Endless o reference := by
  rw [endless_iff, not_not]
  induction h with
  | inline hd =>
    refine ⟨_, fun target ⟨_, _, hn, _⟩ => ?_⟩
    cases (hd.unique hn).2
  | reference hn _ ih =>
    refine ⟨_, fun target ⟨_, _, hn', htarget⟩ => ?_⟩
    cases (hn.unique hn').2
    exact htarget ▸ ih

/-- Where following references ends, it ends at a definition or breaks. -/
theorem leads_or_breaks (h : Acc (flip (Continues o)) reference) :
    (∃ passed d, Leads o reference passed d) ∨ Breaks o reference := by
  induction h with
  | intro reference _ ih =>
    cases hentry : entry? o reference with
    | none =>
      refine .inr (.nowhere fun key entry hn => ?_)
      rw [entry?_eq_some_iff.mpr hn] at hentry
      cases hentry
    | some found =>
      obtain ⟨key, entry⟩ := found
      have hnames : Names o reference key entry := entry?_eq_some_iff.mp hentry
      cases entry with
      | inline d => exact .inl ⟨[], d, .inline hnames⟩
      | reference next =>
        have hcontinues : Continues o reference next.target := ⟨key, next, hnames, rfl⟩
        rcases ih next.target hcontinues with ⟨passed, d, h⟩ | hbreaks
        · exact .inl ⟨next :: passed, d, .reference hnames h⟩
        · exact .inr (.reference hcontinues hbreaks)

/-- Where following references does not lead to a definition, it breaks or never ends. -/
theorem not_leads_iff : (¬ ∃ passed d, Leads o reference passed d) ↔
    Breaks o reference ∨ Endless o reference := by
  constructor
  · intro hnot
    rw [endless_iff, Classical.or_iff_not_imp_right, not_not]
    exact fun hacc => (leads_or_breaks hacc).resolve_left hnot
  · rintro (hbreaks | hendless) ⟨passed, d, h⟩
    · exact h.not_breaks hbreaks
    · exact h.not_endless hendless

/-! ## Following with keys in mind -/

/-- Following references meets a key. -/
inductive Meets (o : Origin) : String → String → Prop
  | here {reference key : String} {entry : Entry} : Names o reference key entry →
    Meets o reference key
  | later {reference target key : String} : Continues o reference target → Meets o target key →
    Meets o reference key

/-- From where a key is met there is no longer way to the end of the chain. -/
theorem Meets.leads (h : Meets o reference key) (hl : Leads o reference passed d) :
    ∃ reference' entry passed', Names o reference' key entry ∧ Leads o reference' passed' d ∧
      passed'.length ≤ passed.length := by
  induction h generalizing passed with
  | here hn => exact ⟨_, _, _, hn, hl, Nat.le_refl _⟩
  | later hc _ ih =>
    obtain ⟨_, _, hn, rfl⟩ := hc
    cases hl with
    | inline hd => cases (hd.unique hn).2
    | reference hn' hl =>
      cases (hn.unique hn').2
      obtain ⟨reference', entry, passed', hn', hl', hle⟩ := ih hl
      exact ⟨reference', entry, passed', hn', hl', Nat.le_succ_of_le hle⟩

/-- The key of a reference is not met again on the way to the end of a chain. -/
theorem Leads.not_meets (hn : Names o reference key (.reference next))
    (h : Leads o next.target passed d) : ¬ Meets o next.target key := by
  intro hmeets
  obtain ⟨reference', entry, passed', hn', hl', hle⟩ := hmeets.leads h
  have hentry : entry = .reference next := Option.some.inj (hn'.found.symm.trans hn.found)
  subst hentry
  -- The way from there would be the whole way from `reference`, which is longer than what is left.
  have hlonger : passed' = next :: passed := (hl'.unique (.reference hn' h)).1
  rw [hlonger, List.length_cons] at hle
  omega

theorem followBelow_inline (hn : Names o reference key (.inline d)) (hv : key ∉ visited) :
    followBelow o (fuel + 1) visited reference = some d := by
  rw [followBelow, entry?_eq_some_iff.mpr hn]
  simp [hv]

theorem followBelow_reference (hn : Names o reference key (.reference next)) (hv : key ∉ visited) :
    followBelow o (fuel + 1) visited reference =
      (followBelow o fuel (key :: visited) next.target).map (·.describe next.description) := by
  rw [followBelow, entry?_eq_some_iff.mpr hn]
  simp [hv]

/-- The definition at the end of a chain, with the first description on the way there. -/
def describeBy (passed : List Referrer) (d : Definition) : Definition :=
  { d with description := (passed.findSome? Referrer.description).or d.description }

theorem describeBy_nil (d : Definition) : describeBy [] d = d := by
  rw [describeBy, List.findSome?_nil, Option.none_or]

theorem describe_describeBy (passed : List Referrer) (d : Definition)
    (description : Option String) : (describeBy passed d).describe description =
      { d with
        description := (description.or (passed.findSome? Referrer.description)).or
          d.description } := by
  rw [Definition.describe, describeBy, Option.or_assoc]

theorem describeBy_cons (next : Referrer) (passed : List Referrer) (d : Definition) :
    describeBy (next :: passed) d = (describeBy passed d).describe next.description := by
  rw [describe_describeBy, describeBy, findSome?_cons_eq_or]

/-- Keys that are kept in mind: distinct ones, with an entry under each. -/
structure Met (o : Origin) (visited : List String) : Prop where
  nodup : visited.Nodup
  entries : visited ⊆ o.components.parameters.keys

theorem Met.nil : Met o [] := ⟨.nil, List.nil_subset _⟩

theorem Met.cons (h : Met o visited) (hn : Names o reference key entry) (hv : key ∉ visited) :
    Met o (key :: visited) where
  nodup := List.nodup_cons.mpr ⟨hv, h.nodup⟩
  entries := List.cons_subset.mpr
    ⟨List.mem_map_of_mem (OrderedMap.get?_eq_some_iff.mp hn.found), h.entries⟩

theorem Met.length_le (h : Met o visited) : visited.length ≤ o.components.parameters.size := by
  have hlength := (h.nodup.subperm h.entries).length_le
  rwa [OrderedMap.keys, List.length_map] at hlength

/-- A chain that ends is followed to its end, if none of its keys is kept in mind. With every step
there is one more, so the steps that are allowed are enough for all keys that there are. -/
theorem Leads.followBelow (h : Leads o reference passed d) (hmet : Met o visited)
    (hfresh : ∀ key ∈ visited, ¬ Meets o reference key)
    (hfuel : visited.length + fuel = o.components.parameters.size + 1) :
    Parameter.followBelow o fuel visited reference = some (describeBy passed d) := by
  induction h generalizing visited fuel with
  | @inline reference key d hn =>
    have hv : key ∉ visited := fun hmem => hfresh key hmem (.here hn)
    have hlength := hmet.length_le
    obtain ⟨fuel, rfl⟩ : ∃ n, fuel = n + 1 := Nat.exists_eq_succ_of_ne_zero (by omega)
    rw [followBelow_inline hn hv, describeBy_nil]
  | @reference reference key next passed d hn hl ih =>
    have hv : key ∉ visited := fun hmem => hfresh key hmem (.here hn)
    have hlength := hmet.length_le
    obtain ⟨fuel, rfl⟩ : ∃ n, fuel = n + 1 := Nat.exists_eq_succ_of_ne_zero (by omega)
    -- The key of this reference joins those that the rest of the chain does not meet.
    have hfresh' : ∀ key' ∈ key :: visited, ¬ Meets o next.target key' := by
      refine List.forall_mem_cons.mpr ⟨hl.not_meets hn, fun key' hmem hmeets => ?_⟩
      exact hfresh key' hmem (.later ⟨key, next, hn, rfl⟩ hmeets)
    have hfuel' : (key :: visited).length + fuel = o.components.parameters.size + 1 := by
      rw [List.length_cons]
      omega
    rw [followBelow_reference hn hv, ih (hmet.cons hn hv) hfresh' hfuel', Option.map_some,
      describeBy_cons]

/-- What is found is the end of a chain. -/
theorem leads_of_followBelow (h : followBelow o fuel visited reference = some t) :
    ∃ passed d, Leads o reference passed d ∧ t = describeBy passed d := by
  induction fuel generalizing visited reference t with
  | zero => cases h
  | succ fuel ih =>
    cases hentry : entry? o reference with
    | none =>
      rw [followBelow, hentry] at h
      cases h
    | some found =>
      obtain ⟨key, entry⟩ := found
      have hn : Names o reference key entry := entry?_eq_some_iff.mp hentry
      by_cases hv : key ∈ visited
      · rw [followBelow, hentry] at h
        simp [hv] at h
      cases entry with
      | inline d =>
        rw [followBelow_inline hn hv] at h
        obtain rfl := Option.some.inj h
        exact ⟨[], d, .inline hn, (describeBy_nil d).symm⟩
      | reference next =>
        rw [followBelow_reference hn hv] at h
        obtain ⟨t', ht', rfl⟩ := Option.map_eq_some_iff.mp h
        obtain ⟨passed, d, hl, rfl⟩ := ih ht'
        exact ⟨next :: passed, d, .reference hn hl, (describeBy_cons next passed d).symm⟩

theorem follow_eq_some_iff : follow o reference = some t ↔
    ∃ passed d, Leads o reference passed d ∧ t = describeBy passed d := by
  constructor
  · exact leads_of_followBelow
  · rintro ⟨passed, d, h, rfl⟩
    exact h.followBelow .nil (fun _ hmem => absurd hmem List.not_mem_nil) (Nat.zero_add _)

/-- A reference stands for a parameter exactly if following it, with nothing kept in mind, ends at
one. It is that parameter with the first description on the way, before which comes that of the
entry with the reference. -/
theorem follow_chain (o : Origin) (reference : String) :
    (∀ t, follow o reference = some t ↔ ∃ passed d, Leads o reference passed d ∧
      t = { d with description := (passed.findSome? Referrer.description).or d.description }) ∧
    (follow o reference = none ↔ Breaks o reference ∨ Endless o reference) ∧
    ∀ summary description t, Entry.definition? o
        (.reference { target := reference, summary, description }) = some t ↔
      ∃ passed d, Leads o reference passed d ∧
        t = { d with
          description := (description.or (passed.findSome? Referrer.description)).or
            d.description } := by
  refine ⟨fun t => follow_eq_some_iff, ?_, fun summary description t => ?_⟩
  · rw [Option.eq_none_iff_forall_ne_some, ← not_leads_iff]
    constructor
    · rintro hnone ⟨passed, d, h⟩
      exact hnone _ (follow_eq_some_iff.mpr ⟨passed, d, h, rfl⟩)
    · rintro hnot t ht
      obtain ⟨passed, d, h, -⟩ := follow_eq_some_iff.mp ht
      exact hnot ⟨passed, d, h⟩
  · rw [Entry.definition?, Option.map_eq_some_iff]
    constructor
    · rintro ⟨t', ht', rfl⟩
      obtain ⟨passed, d, h, rfl⟩ := follow_eq_some_iff.mp ht'
      exact ⟨passed, d, h, describe_describeBy passed d description⟩
    · rintro ⟨passed, d, h, rfl⟩
      exact ⟨_, follow_eq_some_iff.mpr ⟨passed, d, h, rfl⟩,
        describe_describeBy passed d description⟩

/-- A chain of references that are written in different ways, and two that go round in a circle. -/
def aliases : Origin where
  self := some "http://a/x"
  components := { parameters := .ofList [
    ("Limit", .inline { name := "limit", location := .query, description := some "own" }),
    ("Alias", .reference { target := "#/components/parameters/%4Cimit" }),
    ("Outer",
      .reference { target := "x#/components/parameters/Alias", description := some "outer" }),
    ("A", .reference { target := "#/components/parameters/B" }),
    ("B", .reference { target := "http://a/x#/components/parameters/A" })] }

example : (follow aliases "#/components/parameters/Outer").map Definition.description =
      some (some "outer") ∧
    (follow aliases "#/components/parameters/A").isNone := by
  decide +kernel

end OpenApi.Parameter
