import OpenApi.Proofs.Schema.Stored

/-!
# Locations of subschemas

Where a subschema stands in a value, and which node it is loaded as there: equal values at different
locations become different nodes.

* `LoadedAt`: the subschema at a location becomes a node while the value is loaded;
* `Loads.unique`: loading has one outcome;
* `Graph.StoresAt.descends`: what a graph holds of an object and of a location in it.
-/

namespace OpenApi.Schema

open Json

/-! ## Tokens -/

/-- The token of a position in a list. -/
def indexToken (i : Nat) : String := String.ofList (Nat.toDigits 10 i)

/-- All that stands below a keyword in order, with the tokens after the keyword in a pointer. -/
def Below.located : Below α → List (Option String × α)
  | .nothing => []
  | .one item => [(none, item)]
  | .list items => items.mapIdx fun i item => (some (indexToken i), item)
  | .map entries => entries.map fun e => (some e.1, e.2)

theorem Below.map_snd_located (b : Below α) : b.located.map Prod.snd = b.items := by
  cases b with
  | nothing | one => rfl
  | list values => exact List.ext_getElem? fun i => by simp [located, items, Function.comp_def]
  | map entries => simp [located, items, Function.comp_def]

theorem Below.getElem?_items {b : Below α} {i : Nat} {token : Option String} {item : α}
    (h : b.located[i]? = some (token, item)) : b.items[i]? = some item := by
  rw [← map_snd_located, List.getElem?_map, h]
  rfl

/-- The slot that takes the subschemas of a value: an array of items goes to the prefix items. -/
def Slot.target (s : Slot) (value : Value) : Slot :=
  match s, value with
  | .child .items, .array _ => .list .prefixItems
  | s, _ => s

theorem Slot.target_of_isSchema (s : Slot) {value : Value} (h : isSchema value) :
    s.target value = s := by
  rcases s with k | k | k
  · cases value <;> first | cases k <;> rfl | cases h
  · rfl
  · rfl

/-! ## Locations -/

/-- A step down to a subschema: its keyword, the token beside that, and the slot that takes it. -/
structure Descent where
  key : String
  token : Option String
  slot : Slot
deriving DecidableEq

/-- The step from an object to the schema of its further items. -/
def Descent.furtherItems : Descent where
  key := "additionalItems"
  token := none
  slot := .child .items

/-- The tokens of a location, given the words of its keywords. -/
def tokens (word : Descent → String) (location : List Descent) : List String :=
  location.flatMap fun step => word step :: step.token.toList

/-- Loading the value into the graph loads the subschema at the location as the node. What stands
before a subschema is loaded before it, `additionalItems` after all other members. -/
inductive LoadedAt : Graph → Value → List Descent → NodeId → Prop
  | self {g g' : Graph} {value : Value} {id : NodeId} : Loads g value id g' → LoadedAt g value [] id
  | member {g g₁ g₂ : Graph} {before after : List (String × Value)} {key : String} {value u : Value}
    {s : Slot} {d : Draft} {i : Nat} {token : Option String} {ids : List NodeId}
    {location : List Descent} {id : NodeId} :
    LoadsMembers Loads g {} before d g₁ → Slot.ofWord? key = some s →
    (s.below value).located[i]? = some (token, u) →
    LoadsAll Loads g₁ ((s.below value).items.take i) ids g₂ → LoadedAt g₂ u location id →
    LoadedAt g (.object (before ++ (key, value) :: after))
      (⟨key, token, s.target value⟩ :: location) id
  | furtherItems {g g₁ : Graph} {members : List (String × Value)} {d : Draft} {u : Value}
    {location : List Descent} {id : NodeId} :
    LoadsMembers Loads g {} members d g₁ → d.additionalItems members = [u] →
    LoadedAt g₁ u location id → LoadedAt g (.object members) (.furtherItems :: location) id

/-! ## One outcome -/

section

variable {R : Graph → Value → NodeId → Graph → Prop} {g g₁ g₂ : Graph}
  (hR : ∀ {g value id g' id₂ g₂}, R g value id g' → Loads g value id₂ g₂ → id₂ = id ∧ g₂ = g')
include hR

theorem LoadsAll.unique {values : List Value} {ids ids₂ : List NodeId}
    (h : LoadsAll R g values ids g₁) (h₂ : LoadsAll Loads g values ids₂ g₂) :
    ids₂ = ids ∧ g₂ = g₁ := by
  induction h generalizing ids₂ with
  | nil =>
    cases h₂
    exact ⟨rfl, rfl⟩
  | cons hid _ ih =>
    cases h₂ with
    | cons hid₂ hids₂ =>
      obtain ⟨rfl, rfl⟩ := hR hid hid₂
      obtain ⟨rfl, rfl⟩ := ih hids₂
      exact ⟨rfl, rfl⟩

theorem LoadsMembers.unique {d d₁ d₂ : Draft} {members : List (String × Value)}
    (h : LoadsMembers R g d members d₁ g₁) (h₂ : LoadsMembers Loads g d members d₂ g₂) :
    d₂ = d₁ ∧ g₂ = g₁ := by
  induction h with
  | nil =>
    cases h₂
    exact ⟨rfl, rfl⟩
  | cons hids _ ih =>
    cases h₂ with
    | cons hids₂ hrest₂ =>
      obtain ⟨rfl, rfl⟩ := hids.unique hR hids₂
      exact ih hrest₂

theorem LoadsObject.unique {members : List (String × Value)} {id id₂ : NodeId}
    (h : LoadsObject R g members id g₁) (h₂ : LoadsObject Loads g members id₂ g₂) :
    id₂ = id ∧ g₂ = g₁ := by
  obtain ⟨hm, ha⟩ := h
  obtain ⟨hm₂, ha₂⟩ := h₂
  obtain ⟨rfl, rfl⟩ := hm.unique hR hm₂
  obtain ⟨rfl, rfl⟩ := ha.unique hR ha₂
  exact ⟨rfl, rfl⟩

end

/-- A value is loaded into a graph in one way. -/
theorem Loads.unique {g g₁ g₂ : Graph} {value : Value} {id₁ id₂ : NodeId}
    (h : Loads g value id₁ g₁) (h₂ : Loads g value id₂ g₂) : id₂ = id₁ ∧ g₂ = g₁ := by
  refine Loads.induction (motive := fun g value id₁ g₁ =>
    ∀ id₂ g₂, Loads g value id₂ g₂ → id₂ = id₁ ∧ g₂ = g₁) ?_ ?_ h id₂ g₂ h₂
  · exact fun g b id₂ g₂ h₂ => h₂.bool
  · exact fun ho id₂ g₂ h₂ => ho.unique (fun h h₂ => h.2 _ _ h₂) h₂.object

/-! ## Runs that pass a location -/

section

variable {R : Graph → Value → NodeId → Graph → Prop} {g g' : Graph}

theorem LoadsMembers.append {d d' : Draft} {before after : List (String × Value)}
    (h : LoadsMembers R g d (before ++ after) d' g') :
    ∃ d₁ g₁, LoadsMembers R g d before d₁ g₁ ∧ LoadsMembers R g₁ d₁ after d' g' := by
  induction before generalizing g d with
  | nil => exact ⟨d, g, .nil, h⟩
  | cons member before ih =>
    cases h with
    | cons hids h =>
      obtain ⟨d₁, g₁, h₁, h₂⟩ := ih h
      exact ⟨d₁, g₁, .cons hids h₁, h₂⟩

theorem LoadsAll.getElem? {values : List Value} {ids : List NodeId} {i : Nat} {u : Value}
    (h : LoadsAll R g values ids g') (hu : values[i]? = some u) :
    ∃ g₁ g₂ c, LoadsAll R g (values.take i) (ids.take i) g₁ ∧ R g₁ u c g₂ ∧ ids[i]? = some c ∧
      LoadsAll R g₂ (values.drop (i + 1)) (ids.drop (i + 1)) g' := by
  induction h generalizing i with
  | nil => cases hu
  | @cons g g₁ g₂ value values id ids hid hids ih =>
    cases i with
    | zero =>
      cases hu
      exact ⟨g, g₁, id, .nil, hid, rfl, hids⟩
    | succ i =>
      obtain ⟨g₃, g₄, c, htake, hc, hget, hdrop⟩ := ih hu
      exact ⟨g₃, g₄, c, .cons hid htake, hc, hget, hdrop⟩

end

/-! ## Locations in a graph -/

namespace Graph

/-- A value was loaded into the graph as a node, and the subschema at a location in it as
another. -/
def StoresAt (G : Graph) (value : Value) (root : NodeId) (location : List Descent) (id : NodeId) :
    Prop :=
  ∃ g₁ g₂, g₁.Forest ∧ Loads g₁ value root g₂ ∧ g₂.Keeps G ∧ LoadedAt g₁ value location id

/-- The node of an object, the node of a subschema of it, and the rest of a location from there. -/
inductive Descends (G : Graph) (members : List (String × Value)) (root : NodeId)
    (location : List Descent) (id : NodeId) : Descent → Prop
  | member {before after : List (String × Value)} {key : String} {value u : Value} {s : Slot}
    {d d' : Draft} {i : Nat} {token : Option String} {ids others : List NodeId} {c : NodeId} :
    members = before ++ (key, value) :: after → Slot.ofWord? key = some s →
    (s.below value).located[i]? = some (token, u) →
    ids.length = (s.below value).items.length → ids[i]? = some c →
    Reads (fun _ _ => True) (d.read key value ((s.below value).refill ids)) after d' →
    G.node? root = some ((d'.readAdditional members others).finish members) →
    G.StoresAt u c location id → Descends G members root location id ⟨key, token, s.target value⟩
  | furtherItems {u : Value} {d : Draft} {c : NodeId} :
    Reads (fun _ _ => True) {} members d → d.additionalItems members = [u] →
    G.node? root = some ((d.readAdditional members [c]).finish members) →
    G.StoresAt u c location id → Descends G members root location id .furtherItems

namespace StoresAt

variable {G : Graph} {value : Value} {root id : NodeId} {location : List Descent}

theorem eq_of_nil (h : G.StoresAt value root [] id) : id = root := by
  obtain ⟨g₁, g₂, -, hl, -, hat⟩ := h
  cases hat with
  | self hl₂ => exact (hl.unique hl₂).1

theorem exists_object {step : Descent} (h : G.StoresAt value root (step :: location) id) :
    ∃ members, value = .object members := by
  obtain ⟨g₁, g₂, -, -, -, hat⟩ := h
  cases hat with
  | member => exact ⟨_, rfl⟩
  | furtherItems => exact ⟨_, rfl⟩

theorem descends {members : List (String × Value)} {step : Descent}
    (h : G.StoresAt (.object members) root (step :: location) id) :
    G.Descends members root location id step := by
  obtain ⟨g₁, g₂, hf, hl, hG, hat⟩ := h
  obtain @⟨g₃, g₄, d', others, hm, ha⟩ := hl.object
  obtain ⟨-, hf₃⟩ := hm.grows Loads.extends hf
  have he := ha.extendsAll Loads.extends hf₃
  have hG₄ : g₄.Keeps G := (Keeps.push g₄ _).trans hG
  have hnode : G.node? g₄.size = some ((d'.readAdditional members others).finish members) :=
    hG.node?_eq_some (by rw [node?_push, if_pos rfl])
  cases hat with
  | member hbefore hs hu hearlier hat =>
    obtain ⟨d₁, g₅, hbefore', hafter⟩ := hm.append
    obtain ⟨rfl, rfl⟩ := hbefore'.unique Loads.unique hbefore
    cases hafter with
    | cons hids hafter =>
      rw [subvalues, hs] at hids hafter
      have hf₅ := (hbefore.grows Loads.extends hf).2
      have he₅ := hids.extendsAll Loads.extends hf₅
      obtain ⟨g₆, g₇, c, hearlier', hc, hget, hlater⟩ := hids.getElem? (Below.getElem?_items hu)
      obtain ⟨rfl, rfl⟩ := hearlier'.unique Loads.unique hearlier
      have hf₆ := (hearlier.extendsAll Loads.extends hf₅).forest
      have hf₇ := (hc.extends hf₆).forest
      have hG₇ := ((hlater.extendsAll Loads.extends hf₇).grows.toKeeps.trans
        (hafter.grows Loads.extends he₅.forest).1.toKeeps).trans (he.grows.toKeeps.trans hG₄)
      exact .member rfl hs hu hids.length_eq hget hafter.reads_of_any hnode
        ⟨_, _, hf₆, hc, hG₇, hat⟩
  | furtherItems hmembers hu hat =>
    obtain ⟨rfl, rfl⟩ := hm.unique Loads.unique hmembers
    rw [hu] at ha
    cases ha with
    | cons hc hnil =>
      cases hnil
      exact .furtherItems hm.reads_of_any hu hnode ⟨_, _, hf₃, hc, hG₄, hat⟩

end StoresAt

end Graph

end OpenApi.Schema
