import OpenApi.Schema.Loading
import OpenApi.Schema.Writing

/-!
# Keywords without subschemas

Such a keyword is read into one part of a node and written from there.

* `Node.plainValue?_withPlain?_self`, `Node.plainValue?_withPlain?_of_ne`: reading a keyword sets
  its value to the normal form of what was read, and leaves the other keywords alone;
* `Keyword.normal?_normal?`: the normal form is read as itself;
* `Node.plain_ext`: the written values determine what the node holds.
-/

namespace OpenApi

/-! ## Values -/

namespace Json.Value

theorem strings?_ofStrings (texts : List String) : (ofStrings texts).strings? = some texts := by
  show (texts.map Value.string).mapM string? = some texts
  induction texts with
  | nil => rfl
  | cons text texts ih => simp [string?, ih]

theorem ofStrings_injective {xs ys : List String} (h : ofStrings xs = ofStrings ys) : xs = ys := by
  have hs := congrArg strings? h
  rw [strings?_ofStrings, strings?_ofStrings] at hs
  exact Option.some.inj hs

theorem nat?_ofNat (n : Nat) : (ofNat n).nat? = some n := rfl

end Json.Value

namespace TypeSet

theorem insert_of_notMem {s : TypeSet} {name : String} (h : name ∉ s.names) :
    (s.insert name).names = s.names ++ [name] := by
  rw [insert, dif_neg h]

theorem names_insertAll {s : TypeSet} {names : List String} (h : (s.names ++ names).Nodup) :
    (s.insertAll names).names = s.names ++ names := by
  induction names generalizing s with
  | nil => simp [insertAll]
  | cons name names ih =>
    have hname : name ∉ s.names := by
      intro hm
      rw [List.nodup_append] at h
      exact h.2.2 name hm name List.mem_cons_self rfl
    have hs : (s.insert name).names = s.names ++ [name] := insert_of_notMem hname
    show ((s.insert name).insertAll names).names = _
    rw [ih (by rw [hs]; simpa using h), hs, List.append_assoc, List.singleton_append]

theorem mem_insert {s : TypeSet} {name other : String} :
    other ∈ (s.insert name).names ↔ other ∈ s.names ∨ other = name := by
  rw [insert]
  split
  next h =>
    refine ⟨.inl, fun hmem => hmem.elim id ?_⟩
    rintro rfl
    exact h
  next => rw [List.mem_append, List.mem_singleton]

theorem mem_insertAll {s : TypeSet} {names : List String} {other : String} :
    other ∈ (s.insertAll names).names ↔ other ∈ s.names ∨ other ∈ names := by
  induction names generalizing s with
  | nil => simp [insertAll]
  | cons name names ih =>
    rw [show s.insertAll (name :: names) = (s.insert name).insertAll names from rfl, ih,
      mem_insert, List.mem_cons, or_assoc]

theorem insertAll_of_subset {s : TypeSet} {names : List String}
    (h : ∀ name ∈ names, name ∈ s.names) : s.insertAll names = s := by
  induction names with
  | nil => rfl
  | cons name names ih =>
    rw [List.forall_mem_cons] at h
    rw [show s.insertAll (name :: names) = (s.insert name).insertAll names from rfl, insert,
      dif_pos h.1, ih h.2]

/-- One name, however often it is inserted. -/
theorem insertAll_of_forall_eq {s : TypeSet} {names : List String} {name : String}
    (h : ∀ other ∈ names, other = name) (hne : names ≠ []) :
    s.insertAll names = s.insertAll [name] := by
  cases names with
  | nil => exact absurd rfl hne
  | cons first rest =>
    rw [List.forall_mem_cons] at h
    obtain ⟨rfl, hrest⟩ := h
    refine insertAll_of_subset (s := s.insert first) fun other ho => ?_
    exact mem_insert.mpr (.inr (hrest other ho))

/-- The names of a set make up the same set. -/
theorem ofList_names (s : TypeSet) : ofList s.names = s := by
  ext1
  rw [ofList, names_insertAll (by simpa [empty] using s.nodup)]
  rfl

end TypeSet

namespace Schema

open Json

/-! ## Reading and writing -/

/-- Whether a keyword holds no subschema. -/
def Keyword.isPlain : Keyword → Bool
  | .slot _ => false
  | _ => true

/-- The value of a keyword without subschemas as it is written after it was read, if it is of the
right kind and not empty. -/
def Keyword.normal? (k : Keyword) (value : Value) : Option Value :=
  (({} : Node).withPlain? k value).bind (·.plainValue? k)

/-- Whether a value is of the kind of a keyword without subschemas. -/
def Keyword.fits (k : Keyword) (value : Value) : Bool := (({} : Node).withPlain? k value).isSome

/-- The types that a member under `type` declares. -/
def declaredTypes (value : Option Value) : TypeSet :=
  .ofList ((value.bind typesOf?).getD [])

namespace Node

variable {n n' : Node} {k k' : Keyword} {value : Value}

/-- The node without its subschemas and custom keywords. -/
def bare (n : Node) : Node :=
  { n with
    child := fun _ => none
    list := fun _ => []
    map := fun _ => .empty
    custom := .empty }

theorem plainValue?_bare (n : Node) (k : Keyword) : n.bare.plainValue? k = n.plainValue? k := by
  cases k <;> rfl

theorem isSome_withPlain? (n : Node) (k : Keyword) (value : Value) :
    (n.withPlain? k value).isSome = k.fits value := by
  cases k <;> simp [withPlain?, Keyword.fits]

/-- A keyword other than `type` replaces the value that was there. -/
theorem plainValue?_withPlain?_self (h : n.withPlain? k value = some n') (hk : k ≠ .type) :
    n'.plainValue? k = k.normal? value := by
  cases k with
  | slot => cases h
  | type => exact absurd rfl hk
  | constant =>
    cases h
    rfl
  | _ =>
    obtain ⟨a, ha, rfl⟩ := Option.map_eq_some_iff.mp h
    simp [Keyword.normal?, withPlain?, plainValue?, ha]

theorem plainValue?_withPlain?_of_ne (h : n.withPlain? k value = some n') (hk : k' ≠ k) :
    n'.plainValue? k' = n.plainValue? k' := by
  cases k with
  | slot => cases h
  | constant =>
    cases h
    cases k' <;> first | rfl | exact absurd rfl hk
  | text | number | bound | count =>
    obtain ⟨a, -, rfl⟩ := Option.map_eq_some_iff.mp h
    cases k' with
    | text | number | bound | count =>
      first
      | rfl
      | simp only [plainValue?]; rw [update_of_ne _ _ fun hw => hk (by rw [hw])]
    | _ => rfl
  | _ =>
    obtain ⟨a, -, rfl⟩ := Option.map_eq_some_iff.mp h
    cases k' <;> first | rfl | exact absurd rfl hk

/-- A keyword without subschemas changes nothing but the plain part of a node. -/
theorem others_withPlain? (h : n.withPlain? k value = some n') :
    n'.boolean = n.boolean ∧ n'.child = n.child ∧ n'.list = n.list ∧ n'.map = n.map ∧
      n'.annotations = n.annotations ∧ n'.extensions = n.extensions ∧ n'.custom = n.custom := by
  cases k with
  | slot s => cases h
  | constant =>
    cases h
    exact ⟨rfl, rfl, rfl, rfl, rfl, rfl, rfl⟩
  | _ =>
    obtain ⟨a, -, rfl⟩ := Option.map_eq_some_iff.mp h
    exact ⟨rfl, rfl, rfl, rfl, rfl, rfl, rfl⟩

theorem types_withPlain?_self (h : n.withPlain? .type value = some n') (hn : n.types = .empty) :
    n'.types = declaredTypes (some value) := by
  obtain ⟨names, hnames, rfl⟩ := Option.map_eq_some_iff.mp h
  simp [declaredTypes, hnames, hn, TypeSet.ofList]

theorem types_withPlain?_of_ne (h : n.withPlain? k value = some n') (hk : k ≠ .type) :
    n'.types = n.types ∧ n'.typesInferred = n.typesInferred := by
  cases k with
  | slot => cases h
  | type => exact absurd rfl hk
  | constant =>
    cases h
    exact ⟨rfl, rfl⟩
  | _ =>
    obtain ⟨a, -, rfl⟩ := Option.map_eq_some_iff.mp h
    exact ⟨rfl, rfl⟩

theorem typesInferred_withPlain? (h : n.withPlain? k value = some n') :
    n'.typesInferred = n.typesInferred := by
  by_cases hk : k = .type
  · subst hk
    obtain ⟨a, -, rfl⟩ := Option.map_eq_some_iff.mp h
    rfl
  · exact (types_withPlain?_of_ne h hk).2

/-- What a node writes determines what it holds of the keywords without subschemas, the types left
aside. -/
theorem plain_ext (h : ∀ k, k ≠ .type → n.plainValue? k = n'.plainValue? k) :
    n.text = n'.text ∧ n.number = n'.number ∧ n.bound = n'.bound ∧ n.count = n'.count ∧
      n.enumeration = n'.enumeration ∧ n.constant = n'.constant ∧
      n.uniqueItems = n'.uniqueItems ∧ n.required = n'.required := by
  refine ⟨funext fun k => ?_, funext fun k => ?_, funext fun k => ?_, funext fun k => ?_,
    ?_, ?_, ?_, ?_⟩
  · exact Option.map_injective (fun _ _ => Value.string.inj) (h (.text k) nofun)
  · exact Option.map_injective (fun _ _ => Value.number.inj) (h (.number k) nofun)
  · exact h (.bound k) nofun
  · refine Option.map_injective (fun a b hab => ?_) (h (.count k) nofun)
    exact Option.some.inj (congrArg Value.nat? hab)
  · exact Option.map_injective (fun _ _ => Value.array.inj) (h .enumeration nofun)
  · exact h .constant nofun
  · exact Option.map_injective (fun _ _ => Value.bool.inj) (h .uniqueItems nofun)
  · have hr := h .required nofun
    simp only [plainValue?] at hr
    cases hn : n.required <;> cases hn' : n'.required
    · rfl
    · simp [hn, hn'] at hr
    · simp [hn, hn'] at hr
    · rw [hn, hn', if_neg (by simp), if_neg (by simp)] at hr
      exact Value.ofStrings_injective (Option.some.inj hr)

/-- A node is unchanged by a keyword whose value it holds. -/
theorem withPlain?_eq_self (hk : k ≠ .type) (hfits : k.fits value)
    (h : n.plainValue? k = k.normal? value) : n.withPlain? k value = some n := by
  rw [← n.isSome_withPlain?] at hfits
  obtain ⟨n', hn'⟩ := Option.isSome_iff_exists.mp hfits
  obtain ⟨htext, hnumber, hbound, hcount, henumeration, hconstant, huniqueItems, hrequired⟩ :=
    @plain_ext n' n fun k' _ => by
      by_cases hkk : k' = k
      · subst hkk
        rw [plainValue?_withPlain?_self hn' hk, h]
      · exact plainValue?_withPlain?_of_ne hn' hkk
  obtain ⟨hboolean, hchild, hlist, hmap, hannotations, hextensions, hcustom⟩ :=
    others_withPlain? hn'
  obtain ⟨htypes, hinferred⟩ := types_withPlain?_of_ne hn' hk
  have he : n' = n := by
    cases n
    cases n'
    congr
  rw [hn', he]

/-- Types are inferred from the keywords without subschemas and from which slots are filled. -/
theorem inferredTypes_congr (hboolean : n.boolean = n'.boolean)
    (hplain : ∀ k, k ≠ .type → n.plainValue? k = n'.plainValue? k)
    (hslot : ∀ s, (n.slot s).length = (n'.slot s).length) : n.inferredTypes = n'.inferredTypes := by
  obtain ⟨htext, hnumber, hbound, hcount, henumeration, hconstant, huniqueItems, hrequired⟩ :=
    plain_ext hplain
  have hchild (k) : (n.child k).isSome = (n'.child k).isSome := by
    have hlength := hslot (.child k)
    simp only [slot] at hlength
    cases hn : n.child k <;> cases hn' : n'.child k <;> rw [hn, hn'] at hlength <;>
      first | rfl | cases hlength
  have hlist (k) : (n.list k).isEmpty = (n'.list k).isEmpty := by
    have hlength : (n.list k).length = (n'.list k).length := hslot (.list k)
    rw [Bool.eq_iff_iff, List.isEmpty_iff_length_eq_zero, List.isEmpty_iff_length_eq_zero, hlength]
  have hmap (k) : (n.map k).isEmpty = (n'.map k).isEmpty := by
    have hlength : (n.map k).values.length = (n'.map k).values.length := hslot (.map k)
    rw [OrderedMap.values, OrderedMap.values, List.length_map, List.length_map] at hlength
    rw [OrderedMap.isEmpty, OrderedMap.isEmpty, Bool.eq_iff_iff, List.isEmpty_iff_length_eq_zero,
      List.isEmpty_iff_length_eq_zero, hlength]
  simp only [inferredTypes, meaning, hasArrayKeyword, hasObjectKeyword, hasNumberKeyword,
    hasStringKeyword, hboolean, htext, hnumber, hbound, hcount, henumeration, hconstant,
    huniqueItems, hrequired, hchild, hlist, hmap]
  rfl

end Node

namespace Keyword

/-- Reading what was written gives the same again. -/
theorem normal?_normal? {k : Keyword} {v u : Value} (hk : k ≠ .type) (h : k.normal? v = some u) :
    k.normal? u = some u := by
  obtain ⟨n, hn, hu⟩ := Option.bind_eq_some_iff.mp h
  cases k with
  | slot => cases hn
  | type => exact absurd rfl hk
  | constant =>
    cases hn
    cases hu
    rfl
  | required =>
    obtain ⟨names, -, rfl⟩ := Option.map_eq_some_iff.mp hn
    simp only [Node.plainValue?] at hu
    split at hu
    · cases hu
    · rename_i hne
      cases hu
      simpa [normal?, Node.withPlain?, Value.strings?_ofStrings, Node.plainValue?] using hne
  | bound k =>
    obtain ⟨a, ha, rfl⟩ := Option.map_eq_some_iff.mp hn
    simp only [Node.plainValue?, update_self, Option.some.injEq] at hu
    subst hu
    have hb : boundOf? a = some a := by
      cases v <;> cases ha <;> rfl
    simp [normal?, Node.withPlain?, hb, Node.plainValue?]
  | _ =>
    obtain ⟨a, -, rfl⟩ := Option.map_eq_some_iff.mp hn
    simp only [Node.plainValue?, update_self, Option.map_some, Option.some.injEq] at hu
    subst hu
    simp [normal?, Node.withPlain?, Node.plainValue?, Value.string?, Value.number?, Value.items?,
      Value.bool?, Value.nat?_ofNat]

theorem fits_of_normal? {k : Keyword} {v u : Value} (h : k.normal? v = some u) : k.fits v := by
  obtain ⟨n, hn, -⟩ := Option.bind_eq_some_iff.mp h
  rw [fits, hn]
  rfl

end Keyword

/-! ## Types -/

theorem typesOf?_plainValue? {n : Node} {v : Value} (h : n.plainValue? .type = some v) :
    typesOf? v = some n.types.names := by
  simp only [Node.plainValue?] at h
  split at h
  · cases h
  · split at h
    · cases h
    · rename_i name hn
      cases h
      rw [hn]
      rfl
    · cases h
      exact Value.strings?_ofStrings _

end Schema

end OpenApi
