import OpenApi.Proofs.OrderedMap
import OpenApi.Proofs.Schema.Keyword
import OpenApi.Schema.Loading

/-!
# Members of schemas
-/

namespace OpenApi.Schema

open Json

/-! ## What stands below a keyword -/

/-- What stands below a keyword: nothing, one thing, a list or a map. -/
inductive Below (α : Type) where
  | nothing
  | one (item : α)
  | list (items : List α)
  | map (entries : List (String × α))

namespace Below

/-- All that stands there, in order. -/
def items : Below α → List α
  | .nothing => []
  | .one item => [item]
  | .list items => items
  | .map entries => entries.map Prod.snd

/-- Whether nothing stands there, not even an empty list or map. -/
def isNothing : Below α → Bool
  | .nothing => true
  | _ => false

/-- Other things in the same arrangement. -/
def refill : Below α → List β → Below β
  | .one _, [item] => .one item
  | .list _, items => .list items
  | .map entries, items => .map ((entries.map Prod.fst).zip items)
  | _, _ => .nothing

theorem refill_nothing (items : List β) : (nothing : Below α).refill items = .nothing := rfl

end Below

/-- The subschemas that a value holds in a slot. An array of items is a list. -/
def Slot.below (s : Slot) (value : Value) : Below Value :=
  match s, value with
  | .child .items, .array items => .list items
  | .child _, value => if isSchema value then .one value else .nothing
  | .list _, .array items => .list items
  | .map _, .object members => .map members
  | _, _ => .nothing

/-- The subschemas of a member. -/
def subvalues (key : String) (value : Value) : Below Value :=
  match Slot.ofWord? key with
  | some s => s.below value
  | none => .nothing

/-- Loads what stands below a keyword. -/
def loadBelow (pointer : String) : Below Value → Load (Below NodeId)
  | .nothing => pure .nothing
  | .one value => .one <$> load pointer value
  | .list items => .list <$> loadItems pointer 0 items
  | .map entries => .map <$> loadEntries pointer entries

namespace Draft

/-- Puts subschemas into a slot, or keeps the keyword if they do not fit there. -/
def fill (d : Draft) (s : Slot) (key : String) (value : Value) (ids : Below NodeId) : Draft :=
  match s, ids with
  | .child .items, .list ids =>
    { d.setList .prefixItems key value (some ids) with itemsWereList := true }
  | .child k, .one id => d.setChild k key value (some id)
  | .list k, .list ids => d.setList k key value (some ids)
  | .map k, .map ids => d.setMap k key value (some ids)
  | _, _ => d.keep key value

/-- Reads a member without subschemas. -/
def readOther (d : Draft) (key : String) (value : Value) : Draft :=
  if Text.startsWith "x-" key then
    d.modify fun n => { n with extensions := n.extensions.insert key value }
  else if annotationWords.contains key then
    d.modify fun n => { n with annotations := n.annotations.insert key value }
  else if key = "nullable" then d.readNullable value
  else if key = "additionalItems" then d
  else
    match Keyword.ofWord? key with
    | some keyword => d.readPlain keyword key value
    | none => d.keep key value

/-- Reads a member whose subschemas are loaded. -/
def read (d : Draft) (key : String) (value : Value) (ids : Below NodeId) : Draft :=
  match Slot.ofWord? key with
  | some s => d.fill s key value ids
  | none => d.readOther key value

end Draft

section

variable {key : String} (pointer : String) (value : Value) (d : Draft) (rest : List (String × Value))

/-- A member that holds no subschemas is read by itself. -/
theorem loadMembers_cons_of_ofWord?_eq_none (hs : Slot.ofWord? key = none) :
    loadMembers pointer d ((key, value) :: rest) =
      loadMembers pointer (d.readOther key value) rest := by
  obtain ⟨hd, hw⟩ := Slot.ofWord?_eq_none_iff.mp hs
  rw [loadMembers]
  simp only [Draft.readOther, hd, ↓reduceIte]
  split
  · rfl
  split
  · rfl
  split
  · rfl
  split
  · rfl
  cases hk : Keyword.ofWord? key with
  | none => rfl
  | some k =>
    have hk' := Keyword.word_of_ofWord? hk
    cases k with
    | slot s => exact absurd hk' (hw s)
    | _ => rfl

/-- The subschemas of a member are loaded and fill its slot. -/
theorem loadMembers_cons_of_ofWord? {s : Slot} (hs : Slot.ofWord? key = some s) :
    loadMembers pointer d ((key, value) :: rest) = (do
      let ids ← loadBelow (childPointer pointer key) (s.below value)
      loadMembers pointer (d.fill s key value ids) rest) := by
  have hr := Slot.not_isReserved_of_ofWord? hs
  obtain ⟨hx, ha, hn, hi⟩ := isReserved_eq_false_iff.mp hr
  rw [loadMembers]
  simp only [hx, ha, hn, hi, Bool.false_eq_true, ↓reduceIte]
  by_cases hd : key = "definitions"
  · subst hd
    obtain rfl : s = .map .defs := Option.some.inj (hs.symm.trans Slot.ofWord?_definitions)
    cases value <;> simp [loadMap?, loadBelow, Slot.below, Draft.fill, Draft.setMap]
  simp only [hd, Keyword.ofWord?_of_slot hs hd, ↓reduceIte]
  cases s with
  | child k =>
    by_cases hk : k = .items
    · subst hk
      cases value <;> simp [loadList?, loadBelow, Slot.below, isSchema, Draft.fill, Draft.setChild]
    · simp only [hk, ↓reduceIte, pure_bind]
      have hb : (Slot.child k).below value = if isSchema value then .one value else .nothing := by
        cases k <;> cases value <;> first | rfl | exact absurd rfl hk
      rw [hb]
      split <;> cases k <;> simp_all [loadBelow, Draft.fill, Draft.setChild]
  | list k => cases value <;> simp [loadList?, loadBelow, Slot.below, Draft.fill, Draft.setList]
  | map k => cases value <;> simp [loadMap?, loadBelow, Slot.below, Draft.fill, Draft.setMap]

/-- Each member is read once its subschemas are loaded. -/
theorem loadMembers_cons (key : String) :
    loadMembers pointer d ((key, value) :: rest) = (do
      let ids ← loadBelow (childPointer pointer key) (subvalues key value)
      loadMembers pointer (d.read key value ids) rest) := by
  simp only [subvalues, Draft.read]
  cases hs : Slot.ofWord? key with
  | none => rw [loadMembers_cons_of_ofWord?_eq_none pointer value d rest hs, loadBelow, pure_bind]
  | some s => exact loadMembers_cons_of_ofWord? pointer value d rest hs

end

/-! ## Running -/

namespace Load

/-- What a step gives, and the graph after it. -/
def result (x : Load α) (g : Graph) : Except LoadFault α × Graph := x g

theorem result_pure (a : α) (g : Graph) : (pure a : Load α).result g = (.ok a, g) := rfl

theorem result_bind (x : Load α) (f : α → Load β) (g : Graph) :
    (x >>= f).result g =
      match x.result g with
      | (.ok a, g') => (f a).result g'
      | (.error e, g') => (.error e, g') := by
  have : (x >>= f).result g = (ExceptT.bindCont f (x.result g).1 : StateM Graph _) (x.result g).2 :=
    rfl
  rw [this]
  rcases x.result g with ⟨_ | _, _⟩ <;> rfl

theorem result_bind_eq_ok_iff {x : Load α} {f : α → Load β} {g g' : Graph} {b : β} :
    (x >>= f).result g = (.ok b, g') ↔
      ∃ a g₁, x.result g = (.ok a, g₁) ∧ (f a).result g₁ = (.ok b, g') := by
  rw [result_bind]
  rcases x.result g with ⟨e | a, g₁⟩
  · simp
  · refine ⟨fun h => ⟨a, g₁, rfl, h⟩, ?_⟩
    rintro ⟨a', g', h, hf⟩
    cases h
    exact hf

theorem result_map_eq_ok_iff {x : Load α} {f : α → β} {g g' : Graph} {b : β} :
    (f <$> x).result g = (.ok b, g') ↔ ∃ a, x.result g = (.ok a, g') ∧ f a = b := by
  rw [map_eq_pure_bind, result_bind_eq_ok_iff]
  refine ⟨?_, fun ⟨a, hx, h⟩ => ⟨a, g', hx, by rw [h]; rfl⟩⟩
  rintro ⟨a, g₁, hx, h⟩
  cases h
  exact ⟨a, hx, rfl⟩

end Load

/-- Loading a value leads from a graph to another, in which the value has a number. -/
def Loads (g : Graph) (value : Value) (id : NodeId) (g' : Graph) : Prop :=
  ∃ pointer, (load pointer value).result g = (.ok id, g')

/-- Loading values one after the other, each by a relation like `Loads`. -/
inductive LoadsAll (R : Graph → Value → NodeId → Graph → Prop) :
    Graph → List Value → List NodeId → Graph → Prop
  | nil {g : Graph} : LoadsAll R g [] [] g
  | cons {g g₁ g₂ : Graph} {value : Value} {values : List Value} {id : NodeId}
    {ids : List NodeId} : R g value id g₁ → LoadsAll R g₁ values ids g₂ →
    LoadsAll R g (value :: values) (id :: ids) g₂

/-- Loading the members of a schema one after the other. -/
inductive LoadsMembers (R : Graph → Value → NodeId → Graph → Prop) :
    Graph → Draft → List (String × Value) → Draft → Graph → Prop
  | nil {g : Graph} {d : Draft} : LoadsMembers R g d [] d g
  | cons {g g₁ g₂ : Graph} {d d' : Draft} {key : String} {value : Value}
    {rest : List (String × Value)} {ids : List NodeId} :
    LoadsAll R g (subvalues key value).items ids g₁ →
    LoadsMembers R g₁ (d.read key value ((subvalues key value).refill ids)) rest d' g₂ →
    LoadsMembers R g d ((key, value) :: rest) d' g₂

variable {R R' : Graph → Value → NodeId → Graph → Prop} {g g' : Graph}

theorem LoadsAll.length_eq {values : List Value} {ids : List NodeId}
    (h : LoadsAll R g values ids g') : ids.length = values.length := by
  induction h with
  | nil => rfl
  | cons _ _ ih => simp [ih]

theorem LoadsAll.imp {values : List Value} {ids : List NodeId} (h : LoadsAll R g values ids g')
    (hR : ∀ value ∈ values, ∀ g id g', R g value id g' → R' g value id g') :
    LoadsAll R' g values ids g' := by
  induction h with
  | nil => exact .nil
  | cons hid _ ih =>
    rw [List.forall_mem_cons] at hR
    exact .cons (hR.1 _ _ _ hid) (ih hR.2)

theorem LoadsMembers.imp {d d' : Draft} {members : List (String × Value)}
    (h : LoadsMembers R g d members d' g')
    (hR : ∀ m ∈ members, ∀ value ∈ (subvalues m.1 m.2).items, ∀ g id g', R g value id g' →
      R' g value id g') : LoadsMembers R' g d members d' g' := by
  induction h with
  | nil => exact .nil
  | cons hids _ ih =>
    rw [List.forall_mem_cons] at hR
    exact .cons (hids.imp hR.1) (ih hR.2)

theorem loadsAll_of_loadItems {pointer : String} {index : Nat} {values : List Value} {g g' : Graph}
    {ids : List NodeId} (h : (loadItems pointer index values).result g = (.ok ids, g')) :
    LoadsAll Loads g values ids g' := by
  induction values generalizing index g ids with
  | nil =>
    rw [loadItems, Load.result_pure] at h
    cases h
    exact .nil
  | cons value values ih =>
    rw [loadItems, Load.result_bind_eq_ok_iff] at h
    obtain ⟨id, g₁, hid, h⟩ := h
    obtain ⟨ids, g₂, hids, h⟩ := Load.result_bind_eq_ok_iff.mp h
    cases h
    exact .cons ⟨_, hid⟩ (ih hids)

theorem loadsAll_of_loadEntries {pointer : String} {entries : List (String × Value)} {g g' : Graph}
    {found : List (String × NodeId)}
    (h : (loadEntries pointer entries).result g = (.ok found, g')) :
    ∃ ids, LoadsAll Loads g (entries.map Prod.snd) ids g' ∧
      found = (entries.map Prod.fst).zip ids := by
  induction entries generalizing g found with
  | nil =>
    rw [loadEntries, Load.result_pure] at h
    cases h
    exact ⟨[], .nil, rfl⟩
  | cons entry entries ih =>
    obtain ⟨key, value⟩ := entry
    rw [loadEntries, Load.result_bind_eq_ok_iff] at h
    obtain ⟨id, g₁, hid, h⟩ := h
    obtain ⟨found, g₂, hfound, h⟩ := Load.result_bind_eq_ok_iff.mp h
    cases h
    obtain ⟨ids, hids, rfl⟩ := ih hfound
    exact ⟨id :: ids, .cons ⟨_, hid⟩ hids, rfl⟩

theorem loadsAll_of_loadBelow {pointer : String} {b : Below Value} {g g' : Graph}
    {found : Below NodeId} (h : (loadBelow pointer b).result g = (.ok found, g')) :
    ∃ ids, LoadsAll Loads g b.items ids g' ∧ found = b.refill ids := by
  cases b with
  | nothing =>
    cases h
    exact ⟨[], .nil, rfl⟩
  | one value =>
    obtain ⟨id, hid, rfl⟩ := Load.result_map_eq_ok_iff.mp h
    exact ⟨[id], .cons ⟨_, hid⟩ .nil, rfl⟩
  | list items =>
    obtain ⟨ids, hids, rfl⟩ := Load.result_map_eq_ok_iff.mp h
    exact ⟨ids, loadsAll_of_loadItems hids, rfl⟩
  | map entries =>
    obtain ⟨found, hfound, rfl⟩ := Load.result_map_eq_ok_iff.mp h
    obtain ⟨ids, hids, rfl⟩ := loadsAll_of_loadEntries hfound
    exact ⟨ids, hids, rfl⟩

theorem loadsMembers_of_loadMembers {pointer : String} {d d' : Draft}
    {members : List (String × Value)} {g g' : Graph}
    (h : (loadMembers pointer d members).result g = (.ok d', g')) :
    LoadsMembers Loads g d members d' g' := by
  induction members generalizing g d with
  | nil =>
    rw [loadMembers, Load.result_pure] at h
    cases h
    exact .nil
  | cons member rest ih =>
    obtain ⟨key, value⟩ := member
    rw [loadMembers_cons, Load.result_bind_eq_ok_iff] at h
    obtain ⟨found, g₁, hfound, h⟩ := h
    obtain ⟨ids, hids, rfl⟩ := loadsAll_of_loadBelow hfound
    exact .cons hids (ih h)

/-! ## Objects -/

namespace Draft

/-- The subschema that a value of `additionalItems` holds: one, beside a list of items and without
another schema for items. -/
def additional (d : Draft) (value : Value) : Below Value :=
  if d.itemsWereList && (d.node.child .items).isNone && isSchema value then .one value else .nothing

/-- The value of `additionalItems` and the subschemas that it holds. -/
def additionalItems (d : Draft) (members : List (String × Value)) : List Value :=
  match Entries.get? "additionalItems" members with
  | some value => (d.additional value).items
  | none => []

/-- Reads `additionalItems`, whose subschemas are loaded. -/
def readAdditional (d : Draft) (members : List (String × Value)) (ids : List NodeId) : Draft :=
  match Entries.get? "additionalItems" members with
  | some value => d.fill (.child .items) "additionalItems" value ((d.additional value).refill ids)
  | none => d

/-- The node of a draft for some members. -/
def finish (d : Draft) (members : List (String × Value)) : Node :=
  (d.finishNullable (Entries.get? "nullable" members).isSome).withInferredTypes

end Draft

theorem loadAdditionalItems_eq (pointer : String) (d : Draft) (members : List (String × Value)) :
    loadAdditionalItems pointer d members =
      match Entries.get? "additionalItems" members with
      | some value => do
        let ids ← loadBelow (childPointer pointer "additionalItems") (d.additional value)
        pure (d.fill (.child .items) "additionalItems" value ids)
      | none => pure d := by
  induction members with
  | nil => rfl
  | cons member rest ih =>
    obtain ⟨key, value⟩ := member
    rw [loadAdditionalItems, Entries.get?]
    split
    · rename_i hk
      subst hk
      simp only [Draft.additional]
      split <;> simp_all [loadBelow, Draft.fill, Draft.setChild]
    · rename_i hk
      rw [ih]

/-- Loading an object: its members, then `additionalItems`, then the node itself. -/
inductive LoadsObject (R : Graph → Value → NodeId → Graph → Prop) (g : Graph)
    (members : List (String × Value)) : NodeId → Graph → Prop
  | mk {g₁ g₂ : Graph} {d : Draft} {ids : List NodeId} : LoadsMembers R g {} members d g₁ →
    LoadsAll R g₁ (d.additionalItems members) ids g₂ →
    LoadsObject R g members g₂.size (g₂.push ((d.readAdditional members ids).finish members)).2

theorem Loads.bool {g g' : Graph} {b : Bool} {id : NodeId} (h : Loads g (.bool b) id g') :
    id = g.size ∧ g' = (g.push (.ofBool b)).2 := by
  obtain ⟨pointer, h⟩ := h
  rw [load] at h
  cases h
  exact ⟨rfl, rfl⟩

theorem Loads.object {g g' : Graph} {members : List (String × Value)} {id : NodeId}
    (h : Loads g (.object members) id g') : LoadsObject Loads g members id g' := by
  obtain ⟨pointer, h⟩ := h
  rw [load, Load.result_bind_eq_ok_iff] at h
  obtain ⟨d, g₁, hd, h⟩ := h
  obtain ⟨d', g₂, hd', h⟩ := Load.result_bind_eq_ok_iff.mp h
  have additional : ∃ ids, LoadsAll Loads g₁ (d.additionalItems members) ids g₂ ∧
      d' = d.readAdditional members ids := by
    rw [loadAdditionalItems_eq] at hd'
    simp only [Draft.additionalItems, Draft.readAdditional]
    cases ha : Entries.get? "additionalItems" members with
    | none =>
      rw [ha] at hd'
      cases hd'
      exact ⟨[], .nil, rfl⟩
    | some value =>
      rw [ha] at hd'
      obtain ⟨found, g₃, hf, hd'⟩ := Load.result_bind_eq_ok_iff.mp hd'
      cases hd'
      obtain ⟨ids, hids, rfl⟩ := loadsAll_of_loadBelow hf
      exact ⟨ids, hids, rfl⟩
  obtain ⟨ids, hids, rfl⟩ := additional
  cases h
  exact .mk (loadsMembers_of_loadMembers hd) hids

/-- Only booleans and objects are loaded. -/
theorem Loads.isSchema {g g' : Graph} {value : Value} {id : NodeId} (h : Loads g value id g') :
    isSchema value := by
  obtain ⟨pointer, h⟩ := h
  cases value with
  | bool | object => rfl
  | _ => simp only [load] at h; cases h

/-! ### Induction -/

theorem sizeOf_le_of_mem_below {s : Slot} {value v : Value} (h : v ∈ (s.below value).items) :
    sizeOf v ≤ sizeOf value := by
  have one : ∀ value : Value, v ∈ (if isSchema value then Below.one value else .nothing).items →
      sizeOf v ≤ sizeOf value := by
    intro value h
    split at h
    · simp only [Below.items, List.mem_singleton] at h
      exact Nat.le_of_eq (congrArg sizeOf h)
    · cases h
  have list : ∀ items : List Value, v ∈ items → sizeOf v ≤ sizeOf (Value.array items) := by
    intro items h
    have := List.sizeOf_lt_of_mem h
    simp only [Value.array.sizeOf_spec]
    omega
  rcases s with k | k | k
  · cases value with
    | array items =>
      by_cases hk : k = .items
      · subst hk
        exact list items h
      · cases k <;> first | exact absurd rfl hk | cases h
    | _ => cases k <;> exact one _ h
  · cases value with
    | array items => exact list items h
    | _ => cases h
  · cases value with
    | object members =>
      obtain ⟨⟨key, v⟩, hm, rfl⟩ := List.mem_map.mp h
      have := List.sizeOf_lt_of_mem hm
      simp only [Prod.mk.sizeOf_spec, Value.object.sizeOf_spec] at this ⊢
      omega
    | _ => cases h

theorem sizeOf_le_of_mem_subvalues {key : String} {value v : Value}
    (h : v ∈ (subvalues key value).items) : sizeOf v ≤ sizeOf value := by
  rw [subvalues] at h
  split at h
  · exact sizeOf_le_of_mem_below h
  · cases h

theorem sizeOf_lt_object {members : List (String × Value)} {key : String} {value : Value}
    (h : (key, value) ∈ members) : sizeOf value < sizeOf (Value.object members) := by
  have := List.sizeOf_lt_of_mem h
  simp only [Prod.mk.sizeOf_spec, Value.object.sizeOf_spec] at this ⊢
  omega

theorem Draft.mem_additionalItems {d : Draft} {members : List (String × Value)} {v : Value}
    (h : v ∈ d.additionalItems members) :
    ("additionalItems", v) ∈ members ∧ d.itemsWereList ∧ (d.node.child .items).isNone ∧
      isSchema v := by
  rw [additionalItems] at h
  split at h
  · rename_i value hv
    rw [additional] at h
    split at h
    · rename_i hc
      simp only [Below.items, List.mem_singleton] at h
      subst h
      simp only [Bool.and_eq_true] at hc
      exact ⟨Entries.mem_of_get? hv, hc.1.1, hc.1.2, hc.2⟩
    · cases h
  · cases h

/-- Induction on loading: what holds of a boolean, and of an object if it holds of its subschemas,
holds of every value that is loaded. -/
theorem Loads.induction {motive : Graph → Value → NodeId → Graph → Prop}
    (bool : ∀ g b, motive g (.bool b) g.size (g.push (.ofBool b)).2)
    (object : ∀ {g members id g'},
      LoadsObject (fun g v id g' => Loads g v id g' ∧ motive g v id g') g members id g' →
      motive g (.object members) id g') {g g' : Graph} {value : Value} {id : NodeId}
    (h : Loads g value id g') : motive g value id g' := by
  induction hn : sizeOf value using Nat.strongRecOn generalizing value g id g' with
  | ind n ih =>
    subst hn
    cases value with
    | bool b =>
      obtain ⟨rfl, rfl⟩ := h.bool
      exact bool g b
    | object members =>
      apply object
      have sub : ∀ v, sizeOf v < sizeOf (Value.object members) → ∀ g id g', Loads g v id g' →
          Loads g v id g' ∧ motive g v id g' := fun v hv _ _ _ hl => ⟨hl, ih _ hv hl rfl⟩
      obtain ⟨hm, ha⟩ := h.object
      refine ⟨hm.imp fun m hm v hv => sub v ?_, ha.imp fun v hv => sub v ?_⟩
      · exact Nat.lt_of_le_of_lt (sizeOf_le_of_mem_subvalues hv) (sizeOf_lt_object hm)
      · exact sizeOf_lt_object (Draft.mem_additionalItems hv).1
    | _ => simpa [Schema.isSchema] using h.isSchema

/-! ## Acceptance -/

/-- A value that is loaded wherever it stands. -/
def Accepted (value : Value) : Prop :=
  ∀ pointer g, ∃ id g', (load pointer value).result g = (.ok id, g')

theorem accepted_bool (b : Bool) : Accepted (.bool b) := fun _ g =>
  ⟨g.size, (g.push (.ofBool b)).2, by rw [load]; rfl⟩

theorem exists_loadItems {values : List Value} (h : ∀ v ∈ values, Accepted v) (pointer : String)
    (index : Nat) (g : Graph) :
    ∃ ids g', (loadItems pointer index values).result g = (.ok ids, g') := by
  induction values generalizing index g with
  | nil => exact ⟨[], g, by rw [loadItems]; rfl⟩
  | cons value values ih =>
    rw [List.forall_mem_cons] at h
    obtain ⟨id, g₁, hid⟩ := h.1 (childPointer pointer (String.ofList (Nat.toDigits 10 index))) g
    obtain ⟨ids, g₂, hids⟩ := ih h.2 (index + 1) g₁
    refine ⟨id :: ids, g₂, ?_⟩
    rw [loadItems, Load.result_bind_eq_ok_iff]
    exact ⟨id, g₁, hid, Load.result_bind_eq_ok_iff.mpr ⟨ids, g₂, hids, rfl⟩⟩

theorem exists_loadEntries {entries : List (String × Value)}
    (h : ∀ v ∈ entries.map Prod.snd, Accepted v) (pointer : String) (g : Graph) :
    ∃ found g', (loadEntries pointer entries).result g = (.ok found, g') := by
  induction entries generalizing g with
  | nil => exact ⟨[], g, by rw [loadEntries]; rfl⟩
  | cons entry entries ih =>
    obtain ⟨key, value⟩ := entry
    rw [List.map_cons, List.forall_mem_cons] at h
    obtain ⟨id, g₁, hid⟩ := h.1 (childPointer pointer key) g
    obtain ⟨found, g₂, hfound⟩ := ih h.2 g₁
    refine ⟨(key, id) :: found, g₂, ?_⟩
    rw [loadEntries, Load.result_bind_eq_ok_iff]
    exact ⟨id, g₁, hid, Load.result_bind_eq_ok_iff.mpr ⟨found, g₂, hfound, rfl⟩⟩

theorem exists_loadBelow {b : Below Value} (h : ∀ v ∈ b.items, Accepted v) (pointer : String)
    (g : Graph) : ∃ found g', (loadBelow pointer b).result g = (.ok found, g') := by
  cases b with
  | nothing => exact ⟨.nothing, g, rfl⟩
  | one value =>
    obtain ⟨id, g', hid⟩ := h value List.mem_cons_self pointer g
    exact ⟨.one id, g', Load.result_map_eq_ok_iff.mpr ⟨id, hid, rfl⟩⟩
  | list values =>
    obtain ⟨ids, g', hids⟩ := exists_loadItems h pointer 0 g
    exact ⟨.list ids, g', Load.result_map_eq_ok_iff.mpr ⟨ids, hids, rfl⟩⟩
  | map entries =>
    obtain ⟨found, g', hfound⟩ := exists_loadEntries h pointer g
    exact ⟨.map found, g', Load.result_map_eq_ok_iff.mpr ⟨found, hfound, rfl⟩⟩

theorem exists_loadMembers {members : List (String × Value)}
    (h : ∀ m ∈ members, ∀ v ∈ (subvalues m.1 m.2).items, Accepted v) (pointer : String) (d : Draft)
    (g : Graph) : ∃ d' g', (loadMembers pointer d members).result g = (.ok d', g') := by
  induction members generalizing d g with
  | nil => exact ⟨d, g, by rw [loadMembers]; rfl⟩
  | cons member rest ih =>
    obtain ⟨key, value⟩ := member
    rw [List.forall_mem_cons] at h
    obtain ⟨ids, g₁, hids⟩ := exists_loadBelow h.1 (childPointer pointer key) g
    obtain ⟨d', g₂, hd'⟩ := ih h.2 (d.read key value ids) g₁
    refine ⟨d', g₂, ?_⟩
    rw [loadMembers_cons, Load.result_bind_eq_ok_iff]
    exact ⟨ids, g₁, hids, hd'⟩

/-- An object is accepted if all its subschemas are. -/
theorem accepted_object {members : List (String × Value)}
    (h : ∀ m ∈ members, ∀ v ∈ (subvalues m.1 m.2).items, Accepted v)
    (ha : ∀ g d g', LoadsMembers Loads g {} members d g' →
      ∀ v ∈ d.additionalItems members, Accepted v) :
    Accepted (.object members) := by
  intro pointer g
  obtain ⟨d, g₁, hd⟩ := exists_loadMembers h pointer {} g
  have hsub := ha g d g₁ (loadsMembers_of_loadMembers hd)
  have additional : ∃ d' g₂, (loadAdditionalItems pointer d members).result g₁ = (.ok d', g₂) := by
    rw [loadAdditionalItems_eq]
    simp only [Draft.additionalItems] at hsub
    split
    · rename_i value hv
      rw [hv] at hsub
      obtain ⟨ids, g₂, hids⟩ :=
        exists_loadBelow hsub (childPointer pointer "additionalItems") g₁
      exact ⟨_, g₂, Load.result_bind_eq_ok_iff.mpr ⟨ids, g₂, hids, rfl⟩⟩
    · exact ⟨d, g₁, rfl⟩
  obtain ⟨d', g₂, hd'⟩ := additional
  refine ⟨g₂.size, (g₂.push (d'.finish members)).2, ?_⟩
  rw [load, Load.result_bind_eq_ok_iff]
  exact ⟨d, g₁, hd, Load.result_bind_eq_ok_iff.mpr ⟨d', g₂, hd', rfl⟩⟩

end OpenApi.Schema
