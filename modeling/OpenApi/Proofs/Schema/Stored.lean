import Mathlib.Data.List.Forall2
import OpenApi.Proofs.Schema.Extension

/-!
# Stored schemas

What a graph holds of a value that was loaded into it, without the graphs in between.

* `Graph.Stores`: the value was loaded and has a number in the graph;
* `Graph.Stores.induction`: what holds of booleans, and of objects if it holds of their subschemas,
  holds of all stored values;
* `Reads.eq_of_frame`, `Reads.eq_of_get?`, `Reads.entries_eq`: what a part of a draft is after the
  members were read, given what one member does to it.
-/

namespace OpenApi.Schema

open Json

/-! ## Reading members -/

/-- Reading the members of a schema one after the other, each subschema standing in a relation to
its number. -/
inductive Reads (S : Value → NodeId → Prop) : Draft → List (String × Value) → Draft → Prop
  | nil {d : Draft} : Reads S d [] d
  | cons {d d' : Draft} {key : String} {value : Value} {rest : List (String × Value)}
    {ids : List NodeId} : List.Forall₂ S (subvalues key value).items ids →
    Reads S (d.read key value ((subvalues key value).refill ids)) rest d' →
    Reads S d ((key, value) :: rest) d'

/-- Reading an object as a node. -/
inductive ReadsObject (S : Value → NodeId → Prop) (members : List (String × Value)) : Node → Prop
  | mk {d : Draft} {ids : List NodeId} : Reads S {} members d →
    List.Forall₂ S (d.additionalItems members) ids →
    ReadsObject S members ((d.readAdditional members ids).finish members)

namespace Reads

variable {S S' : Value → NodeId → Prop} {d d' : Draft} {members : List (String × Value)}
  {φ : Draft → α}

theorem imp (h : Reads S d members d')
    (hS : ∀ m ∈ members, ∀ v ∈ (subvalues m.1 m.2).items, ∀ id, S v id → S' v id) :
    Reads S' d members d' := by
  induction h with
  | nil => exact .nil
  | cons hids _ ih =>
    rw [List.forall_mem_cons] at hS
    refine .cons ?_ (ih hS.2)
    rw [List.forall₂_iff_zip] at hids ⊢
    exact ⟨hids.1, fun hm => hS.1 _ (List.of_mem_zip hm).1 _ (hids.2 hm)⟩

theorem append {members' : List (String × Value)} (h : Reads S d (members ++ members') d') :
    ∃ d₁, Reads S d members d₁ ∧ Reads S d₁ members' d' := by
  induction members generalizing d with
  | nil => exact ⟨d, .nil, h⟩
  | cons member members ih =>
    cases h with
    | cons hids h =>
      obtain ⟨d₁, h₁, h₂⟩ := ih h
      exact ⟨d₁, .cons hids h₁, h₂⟩

/-- A part of a draft that no member changes stays. -/
theorem eq_of_frame (h : Reads S d members d')
    (frame : ∀ m ∈ members, ∀ (d : Draft) (ids : List NodeId),
      φ (d.read m.1 m.2 ((subvalues m.1 m.2).refill ids)) = φ d) : φ d' = φ d := by
  induction h with
  | nil => rfl
  | cons _ _ ih =>
    rw [List.forall_mem_cons] at frame
    rw [ih frame.2, frame.1]

/-- A part of a draft that one member changes is what this member makes of it. -/
theorem eq_of_get? {key : String} {value : Value} (h : Reads S d members d')
    (hkeys : (members.map Prod.fst).Nodup) (hget : Entries.get? key members = some value)
    (frame : ∀ m ∈ members, m.1 ≠ key → ∀ (d : Draft) (ids : List NodeId),
      φ (d.read m.1 m.2 ((subvalues m.1 m.2).refill ids)) = φ d) :
    ∃ d₁ ids, φ d₁ = φ d ∧ List.Forall₂ S (subvalues key value).items ids ∧
      φ d' = φ (d₁.read key value ((subvalues key value).refill ids)) := by
  obtain ⟨before, after, rfl⟩ := List.append_of_mem (Entries.mem_of_get? hget)
  rw [List.map_append, List.map_cons, List.nodup_append, List.nodup_cons] at hkeys
  obtain ⟨-, ⟨hafter, -⟩, hbefore⟩ := hkeys
  obtain ⟨d₁, h₁, h₂⟩ := h.append
  cases h₂ with
  | cons hids h₂ =>
    refine ⟨d₁, _, h₁.eq_of_frame fun m hm => ?_, hids, h₂.eq_of_frame fun m hm => ?_⟩
    · refine frame m (List.mem_append_left _ hm) ?_
      exact hbefore _ (List.mem_map_of_mem hm) _ List.mem_cons_self
    · refine frame m (List.mem_append_right _ (List.mem_cons_of_mem _ hm)) ?_
      exact fun hk => hafter (List.mem_map.mpr ⟨m, hm, hk⟩)

/-- A map to which some members are added, under their keys, holds those members in order. -/
theorem entries_eq {φ : Draft → OrderedMap Value} {p : String → Value → Bool}
    (h : Reads S d members d') (hkeys : (members.map Prod.fst).Nodup)
    (hfresh : ∀ m ∈ members, m.1 ∉ (φ d).keys)
    (step : ∀ (d : Draft) key value (ids : List NodeId),
      ids.length = (subvalues key value).items.length →
      φ (d.read key value ((subvalues key value).refill ids)) =
        if p key value then (φ d).insert key value else φ d) :
    (φ d').entries = (φ d).entries ++ members.filter fun m => p m.1 m.2 := by
  induction h with
  | nil => simp
  | @cons d d' key value rest ids hids _ ih =>
    rw [List.map_cons, List.nodup_cons] at hkeys
    rw [List.forall_mem_cons] at hfresh
    have hd := step d key value ids hids.length_eq.symm
    cases hp : p key value with
    | false =>
      rw [hp, if_neg Bool.false_ne_true] at hd
      rw [ih hkeys.2 (hd ▸ hfresh.2), hd, List.filter_cons_of_neg (by simp [hp])]
    | true =>
      rw [hp, if_pos rfl] at hd
      have he : ((φ d).insert key value).entries = (φ d).entries ++ [(key, value)] :=
        Entries.insert_of_notMem hfresh.1
      have hrest : ∀ m ∈ rest, m.1 ∉ ((φ d).insert key value).keys := by
        intro m hm hk
        rcases Entries.mem_keys_insert.mp hk with hk | hk
        · exact hkeys.1 (List.mem_map.mpr ⟨m, hm, hk⟩)
        · exact hfresh.2 m hm hk
      rw [ih hkeys.2 (hd ▸ hrest), hd, he, List.filter_cons_of_pos (by simp [hp]),
        List.append_assoc, List.singleton_append]

end Reads

/-! ## Stored values -/

namespace Graph

/-- A value was loaded into the graph, where it has a number. -/
def Stores (g : Graph) (value : Value) (id : NodeId) : Prop :=
  ∃ g₁ g₂, g₁.Forest ∧ Loads g₁ value id g₂ ∧ g₂.Keeps g

end Graph

section

variable {g₁ g₂ g : Graph}

theorem LoadsAll.stores {values : List Value} {ids : List NodeId}
    (h : LoadsAll Loads g₁ values ids g₂) (hf : g₁.Forest) (hg : g₂.Keeps g) :
    List.Forall₂ g.Stores values ids := by
  induction h with
  | nil => exact .nil
  | cons hid hids ih =>
    have he := hid.extends hf
    have hrest := hids.extendsAll Loads.extends he.forest
    exact .cons ⟨_, _, hf, hid, hrest.grows.toKeeps.trans hg⟩ (ih he.forest hg)

theorem LoadsMembers.reads {d d' : Draft} {members : List (String × Value)}
    (h : LoadsMembers Loads g₁ d members d' g₂) (hf : g₁.Forest) (hg : g₂.Keeps g) :
    Reads g.Stores d members d' := by
  induction h with
  | nil => exact .nil
  | cons hids hrest ih =>
    have he := hids.extendsAll Loads.extends hf
    have hkeeps := (hrest.grows Loads.extends he.forest).1.toKeeps.trans hg
    exact .cons (hids.stores hf hkeeps) (ih he.forest hg)

/-- Whatever the numbers stand for, the members are read in the same way. -/
theorem LoadsMembers.reads_of_any {R : Graph → Value → NodeId → Graph → Prop} {d d' : Draft}
    {members : List (String × Value)} (h : LoadsMembers R g₁ d members d' g₂) :
    Reads (fun _ _ => True) d members d' := by
  induction h with
  | nil => exact .nil
  | cons hids _ ih =>
    refine .cons (List.forall₂_iff_zip.mpr ⟨hids.length_eq.symm, fun _ => trivial⟩) ih

end

namespace Graph.Stores

variable {g : Graph} {value : Value} {id : NodeId}

theorem bool {b : Bool} (h : g.Stores (.bool b) id) : g.node? id = some (.ofBool b) := by
  obtain ⟨g₁, g₂, -, hl, hg⟩ := h
  obtain ⟨rfl, rfl⟩ := hl.bool
  apply hg.node?_eq_some
  rw [node?_push, if_pos rfl]

theorem object {members : List (String × Value)} (h : g.Stores (.object members) id) :
    ∃ n, g.node? id = some n ∧ ReadsObject g.Stores members n := by
  obtain ⟨g₁, g₂, hf, hl, hg⟩ := h
  obtain @⟨g₃, g₄, d, ids, hm, ha⟩ := hl.object
  obtain ⟨-, hf₃⟩ := hm.grows Loads.extends hf
  have he := ha.extendsAll Loads.extends hf₃
  have hg₄ : g₄.Keeps g := (Keeps.push g₄ _).trans hg
  refine ⟨_, hg.node?_eq_some ?_, .mk (hm.reads hf (he.grows.toKeeps.trans hg₄))
    (ha.stores hf₃ hg₄)⟩
  rw [node?_push, if_pos rfl]

theorem isSchema (h : g.Stores value id) : isSchema value := by
  obtain ⟨_, _, -, hl, -⟩ := h
  exact hl.isSchema

/-- Induction on stored values: what holds of booleans, and of objects if it holds of their
subschemas, holds of all. -/
theorem induction {motive : Value → NodeId → Prop}
    (bool : ∀ b id, g.node? id = some (.ofBool b) → motive (.bool b) id)
    (object : ∀ members id n, g.node? id = some n →
      ReadsObject (fun v c => g.Stores v c ∧ motive v c) members n → motive (.object members) id)
    (h : g.Stores value id) : motive value id := by
  induction hn : sizeOf value using Nat.strongRecOn generalizing value id with
  | ind n ih =>
    subst hn
    cases value with
    | bool b => exact bool b id h.bool
    | object members =>
      have sub : ∀ v, sizeOf v < sizeOf (Value.object members) → ∀ c, g.Stores v c →
          g.Stores v c ∧ motive v c := fun v hv c hc => ⟨hc, ih _ hv hc rfl⟩
      obtain ⟨n, hnode, hr⟩ := h.object
      refine object members id n hnode ?_
      obtain ⟨hm, ha⟩ := hr
      refine .mk (hm.imp fun m hm v hv => sub v ?_) ?_
      · exact Nat.lt_of_le_of_lt (sizeOf_le_of_mem_subvalues hv) (sizeOf_lt_object hm)
      · rw [List.forall₂_iff_zip] at ha ⊢
        refine ⟨ha.1, fun hz => sub _ ?_ _ (ha.2 hz)⟩
        exact sizeOf_lt_object (Draft.mem_additionalItems (List.of_mem_zip hz).1).1
    | _ => simpa [Schema.isSchema] using h.isSchema

end Graph.Stores

end OpenApi.Schema
