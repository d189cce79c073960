import OpenApi.Proofs.Pointer
import OpenApi.Proofs.Schema.Held
import OpenApi.Proofs.Schema.Insertion
import OpenApi.Proofs.Schema.Location

/-!
# Faults of loading

Loading stops at the first value that stands for a schema and is none. The schema positions of a
value are listed in the order in which they are loaded (`places`), so that the fault is that of the
first position in the list with such a value.

* `at?_pointer`: the pointer of a position leads to what stands there;
* `exists_place_iff`: the positions are those at which subschemas stand;
* `faults_load`: loading a value fails with the fault of the first position that has one;
* `Graph.ofValue_eq_error`: when loading fails, and with which message.
-/

namespace OpenApi

open Json

/-! ## Following pointers -/

namespace Reference

/-- The token of a pointer segment without percent-encoding. -/
def unescapeSegment (segment : List Char) : String :=
  String.ofList (unescapeMark '0' '~' (unescapeMark '1' '/' segment))

theorem unescapeSegment_escapeSegment (key : String) :
    unescapeSegment (escapeSegment key).toList = key := by
  have hslash : unescapeMark '1' '/' (escapeSegment key).toList =
      key.toList.flatMap fun c => if c = '~' then ['~', '0'] else [c] := by
    rw [escapeSegment, String.toList_ofList]
    refine unescapeMark_flatMap (fun c rest => ?_) _
    split
    next hc =>
      exact (unescapeMark_other (by decide) _).trans
        (congrArg _ (unescapeMark_cons_of_ne (by decide) _))
    next hc =>
      split
      next h =>
        subst h
        exact unescapeMark_mark _ _ _
      next => exact unescapeMark_cons_of_ne hc rest
  have htilde : unescapeMark '0' '~'
        (key.toList.flatMap fun c => if c = '~' then ['~', '0'] else [c]) =
      key.toList.flatMap fun c => [c] := by
    refine unescapeMark_flatMap (fun c rest => ?_) _
    split
    next h =>
      subst h
      exact unescapeMark_mark _ _ _
    next hc => exact unescapeMark_cons_of_ne hc rest
  rw [unescapeSegment, hslash, htilde, List.flatMap_singleton', String.ofList_toList]

theorem slash_notMem_escapeSegment (key : String) : '/' ∉ (escapeSegment key).toList := by
  rw [escapeSegment, String.toList_ofList, List.mem_flatMap]
  rintro ⟨c, -, hc⟩
  split at hc
  · exact absurd hc (by decide)
  split at hc
  · exact absurd hc (by decide)
  next h => exact h (List.mem_singleton.mp hc).symm

end Reference

namespace Json.Value

/-- The parts of a value with the tokens that lead to them: keys, or positions in digits. -/
def parts : Value → List (String × Value)
  | .object ms => ms
  | .array items => items.mapIdx fun i item => (Schema.indexToken i, item)
  | _ => []

/-- The value to which tokens lead one after the other. -/
def walk? (v : Value) (tokens : List String) : Option Value :=
  tokens.foldlM (fun v token => Entries.get? token v.parts) v

/-- The value to which a JSON Pointer in a fragment leads, nothing in it being percent-encoded. -/
def at? (v : Value) (pointer : String) : Option Value :=
  match pointer.toList with
  | '#' :: cs =>
    match Text.splitOn '/' cs with
    | [] :: segments => v.walk? (segments.map Reference.unescapeSegment)
    | _ => none
  | _ => none

theorem walk?_append (v : Value) (front back : List String) :
    v.walk? (front ++ back) = (v.walk? front).bind (·.walk? back) :=
  List.foldlM_append

theorem walk?_singleton (v : Value) (token : String) :
    v.walk? [token] = Entries.get? token v.parts := by
  rw [walk?, List.foldlM_cons]
  exact Option.bind_fun_some _

end Json.Value

namespace Schema

theorem splitOn_segments {front : List Char} (h : '/' ∉ front) (tokens : List String) :
    Text.splitOn '/' (front ++ tokens.flatMap fun t => '/' :: (Reference.escapeSegment t).toList) =
      front :: tokens.map fun t => (Reference.escapeSegment t).toList := by
  induction tokens generalizing front with
  | nil => rw [List.flatMap_nil, List.append_nil, Text.splitOn_of_notMem h, List.map_nil]
  | cons token tokens ih =>
    rw [List.flatMap_cons, List.cons_append, Text.splitOn_append h,
      ih (Reference.slash_notMem_escapeSegment token), List.map_cons]

theorem toList_foldl_childPointer (pointer : String) (tokens : List String) :
    (tokens.foldl childPointer pointer).toList =
      pointer.toList ++ tokens.flatMap fun t => '/' :: (Reference.escapeSegment t).toList := by
  induction tokens generalizing pointer with
  | nil => simp
  | cons token tokens ih => simp [ih, childPointer]

/-- The pointer that tokens make leads where the tokens lead. -/
theorem at?_foldl_childPointer (v : Value) (tokens : List String) :
    v.at? (tokens.foldl childPointer "#") = v.walk? tokens := by
  have htext : (tokens.foldl childPointer "#").toList =
      '#' :: ([] ++ tokens.flatMap fun t => '/' :: (Reference.escapeSegment t).toList) :=
    toList_foldl_childPointer "#" tokens
  have hmap : (tokens.map fun t => (Reference.escapeSegment t).toList).map
      Reference.unescapeSegment = tokens := by
    simp [Function.comp_def, Reference.unescapeSegment_escapeSegment]
  rw [Value.at?, htext]
  simp only [splitOn_segments List.not_mem_nil, hmap]

theorem indexToken_injective {i j : Nat} (h : indexToken i = indexToken j) : i = j := by
  have hdigits : Nat.toDigits 10 i = Nat.toDigits 10 j := String.ofList_injective h
  rw [← Nat.ofDigitChars_ten_toDigits (n := i), hdigits, Nat.ofDigitChars_ten_toDigits]

theorem nodup_indexTokens (items : List Value) :
    ((items.mapIdx fun i item => (indexToken i, item)).map Prod.fst).Nodup := by
  have hmap : (items.mapIdx fun i item => (indexToken i, item)).map Prod.fst =
      (List.range items.length).map indexToken := by
    refine List.ext_getElem (by simp) fun i h h' => by simp
  rw [hmap]
  exact List.nodup_range.map fun i j h => indexToken_injective h

theorem nodup_parts {v : Value} (h : v.DistinctKeys) : (v.parts.map Prod.fst).Nodup := by
  cases v with
  | object ms => exact h.1
  | array items => exact nodup_indexTokens items
  | _ => exact .nil

/-- What stands below a keyword is the value itself, or a part of it under its token. -/
theorem Slot.mem_located_below {s : Slot} {value u : Value} {token : Option String}
    (h : (token, u) ∈ (s.below value).located) :
    token = none ∧ u = value ∨ ∃ t, token = some t ∧ (t, u) ∈ value.parts := by
  have list : ∀ {items : List Value}, (token, u) ∈ (Below.list items).located →
      ∃ t, token = some t ∧ (t, u) ∈ (Value.array items).parts := by
    intro items h
    obtain ⟨i, hi, he⟩ := List.mem_mapIdx.mp h
    cases he
    exact ⟨indexToken i, rfl, List.mem_mapIdx.mpr ⟨i, hi, rfl⟩⟩
  rcases s with k | k | k
  · rcases Slot.below_child k value with ⟨-, hb⟩ | ⟨items, -, rfl, hb⟩ | ⟨-, -, hb⟩
    · rw [hb] at h
      cases List.mem_singleton.mp h
      exact .inl ⟨rfl, rfl⟩
    · rw [hb] at h
      exact .inr (list h)
    · rw [hb] at h
      cases h
  · cases value with
    | array items => exact .inr (list h)
    | _ => cases h
  · cases value with
    | object entries =>
      obtain ⟨e, he, heq⟩ := List.mem_map.mp h
      cases heq
      exact .inr ⟨e.1, rfl, he⟩
    | _ => cases h

/-! ## Places -/

/-- A schema position in a value: the tokens that lead to it, and what stands there. -/
structure Place where
  tokens : List String
  value : Value

/-- The position seen from further up. -/
def Place.under (front : List String) (p : Place) : Place := ⟨front ++ p.tokens, p.value⟩

/-- The pointer of a position in a top-level schema. -/
def Place.pointer (p : Place) : String := p.tokens.foldl childPointer "#"

/-- The members in the order in which their subschemas are loaded: `additionalItems` last. -/
def inOrder (ms : List (String × Value)) : List (String × Value) :=
  ms.filter (·.1 != "additionalItems") ++ ms.filter (·.1 == "additionalItems")

theorem mem_inOrder {ms : List (String × Value)} {m : String × Value} :
    m ∈ inOrder ms ↔ m ∈ ms := by
  by_cases h : m.1 = "additionalItems" <;> simp [inOrder, h]

/-- The positions of the subschemas that members hold. -/
def heldPlaces (ms : List (String × Value)) : List Place :=
  (inOrder ms).flatMap fun m =>
    (holding ms m.1 m.2).located.map fun e => ⟨m.1 :: e.1.toList, e.2⟩

theorem mem_heldPlaces {ms : List (String × Value)} {p : Place} : p ∈ heldPlaces ms ↔
    ∃ m ∈ ms, ∃ e ∈ (holding ms m.1 m.2).located, p = ⟨m.1 :: e.1.toList, e.2⟩ := by
  simp only [heldPlaces, List.mem_flatMap, List.mem_map, mem_inOrder, eq_comm]

theorem holds_of_mem_heldPlaces {ms : List (String × Value)} {p : Place} (h : p ∈ heldPlaces ms) :
    Holds ms p.value := by
  obtain ⟨m, hm, e, he, rfl⟩ := mem_heldPlaces.mp h
  refine ⟨m, hm, ?_⟩
  rw [← Below.map_snd_located]
  exact List.mem_map_of_mem he

/-- The schema positions of a value in the order of its keys, each before those below it. -/
def places : Value → List Place
  | .object ms => ⟨[], .object ms⟩ ::
    (heldPlaces ms).attach.flatMap fun p => (places p.1.value).map (.under p.1.tokens)
  | v => [⟨[], v⟩]
termination_by v => sizeOf v
decreasing_by exact (holds_of_mem_heldPlaces p.2).sizeOf_lt

theorem places_object (ms : List (String × Value)) : places (.object ms) = ⟨[], .object ms⟩ ::
    (heldPlaces ms).flatMap fun p => (places p.value).map (.under p.tokens) := by
  rw [places]
  congr 1
  conv => rhs; rw [← List.attach_map_subtype_val (heldPlaces ms)]
  rw [List.flatMap_map]

theorem places_of_members?_eq_none {v : Value} (h : v.members? = none) : places v = [⟨[], v⟩] := by
  cases v with
  | object => cases h
  | _ => simp only [places]

/-! ## The first fault -/

/-- The fault of a position in a value that stands at a pointer, if there is no schema. -/
def Place.fault? (pointer : String) (p : Place) : Option LoadFault :=
  if isSchema p.value then none
  else some { pointer := p.tokens.foldl childPointer pointer, kind := p.value.kind }

/-- The fault of the first position without a schema in a value that stands at a pointer. -/
def firstFault (pointer : String) (v : Value) : Option LoadFault :=
  (places v).findSome? (Place.fault? pointer)

/-- The first fault of what stands below a keyword. -/
def belowFault (pointer : String) (b : Below Value) : Option LoadFault :=
  b.located.findSome? fun e => firstFault (e.1.toList.foldl childPointer pointer) e.2

theorem firstFault_of_not_isSchema {v : Value} (h : isSchema v = false) (pointer : String) :
    firstFault pointer v = some { pointer, kind := v.kind } := by
  have hmembers : v.members? = none := by cases v <;> first | rfl | cases h
  rw [firstFault, places_of_members?_eq_none hmembers, List.findSome?_singleton,
    Place.fault?, if_neg (by simp [h])]
  rfl

theorem firstFault_bool (pointer : String) (b : Bool) : firstFault pointer (.bool b) = none := by
  rw [firstFault, places_of_members?_eq_none rfl]
  rfl

theorem Place.fault?_under (pointer : String) (front : List String) (p : Place) :
    (p.under front).fault? pointer = p.fault? (front.foldl childPointer pointer) := by
  rw [fault?, fault?, under, List.foldl_append]

theorem firstFault_object (pointer : String) (ms : List (String × Value)) :
    firstFault pointer (.object ms) = (inOrder ms).findSome? fun m =>
      belowFault (childPointer pointer m.1) (holding ms m.1 m.2) := by
  have hself : Place.fault? pointer ⟨[], .object ms⟩ = none := rfl
  rw [firstFault, places_object, List.findSome?_cons, hself]
  simp only [heldPlaces, findSome?_flatMap, List.findSome?_map, belowFault, Function.comp_def,
    Place.fault?_under, List.foldl_cons, firstFault]

/-- The members come first, which hold nothing as `additionalItems`, and then that. -/
theorem firstFault_members {ms : List (String × Value)} (hkeys : (ms.map Prod.fst).Nodup)
    (pointer : String) : firstFault pointer (.object ms) =
      (ms.findSome? fun m => belowFault (childPointer pointer m.1) (subvalues m.1 m.2)).or
        ((Entries.get? "additionalItems" ms).bind fun v =>
          belowFault (childPointer pointer "additionalItems")
            (holding ms "additionalItems" v)) := by
  rw [firstFault_object, inOrder, List.findSome?_append, Entries.filter_key hkeys, findSome?_filter]
  congr 1
  · refine findSome?_congr fun m _ => ?_
    split
    next h => rw [holding_of_ne (by simpa using h)]
    next h =>
      have hkey : m.1 = "additionalItems" := by simpa using h
      rw [hkey]
      rfl
  · cases Entries.get? "additionalItems" ms with
    | none => rfl
    | some v => exact List.findSome?_singleton

/-! ## Loading -/

namespace Load

variable {α β : Type}

/-- The fault with which a step ends, if it fails. -/
def fault? (x : Load α) (g : Graph) : Option LoadFault :=
  match (x.result g).1 with
  | .ok _ => none
  | .error e => some e

/-- A step ends with the fault, if there is one, whatever the graph is. -/
def Faults (x : Load α) (e : Option LoadFault) : Prop := ∀ g, x.fault? g = e

namespace Faults

variable {x : Load α} {f : α → Load β} {e e' : Option LoadFault}

theorem pure (a : α) : (Pure.pure a : Load α).Faults none := fun _ => rfl

theorem bind (hx : x.Faults e)
    (hf : ∀ g a g', x.result g = (.ok a, g') → (f a).fault? g' = e') :
    (x >>= f).Faults (e.or e') := by
  intro g
  have hfirst := hx g
  rw [fault?, result_bind]
  rw [fault?] at hfirst
  rcases hr : x.result g with ⟨e₁ | a, g₁⟩ <;> rw [hr] at hfirst
  · exact hfirst ▸ rfl
  · exact hfirst ▸ hf g a g₁ hr

theorem map (f : α → β) (hx : x.Faults e) : (f <$> x).Faults e := by
  rw [map_eq_pure_bind, ← Option.or_none (o := e)]
  exact hx.bind fun _ _ _ _ => rfl

end Faults

end Load

theorem faults_loadItems {values : List Value}
    (h : ∀ v ∈ values, ∀ pointer, (load pointer v).Faults (firstFault pointer v)) (pointer : String)
    (index : Nat) : (loadItems pointer index values).Faults
      ((values.mapIdx fun i v => (indexToken (index + i), v)).findSome? fun e =>
        firstFault (childPointer pointer e.1) e.2) := by
  induction values generalizing index with
  | nil =>
    rw [loadItems]
    exact .pure []
  | cons v vs ih =>
    rw [List.forall_mem_cons] at h
    have hshift : (fun i v => (indexToken (index + (i + 1)), v)) =
        fun i (v : Value) => (indexToken (index + 1 + i), v) :=
      funext fun i => by rw [Nat.add_comm i, ← Nat.add_assoc]
    rw [loadItems, List.mapIdx_cons, findSome?_cons_eq_or, hshift]
    refine (h.1 _).bind fun g id g' _ => ?_
    exact ((ih h.2 (index + 1)).map (id :: ·)) g'

theorem faults_loadEntries {entries : List (String × Value)}
    (h : ∀ v ∈ entries.map Prod.snd, ∀ pointer, (load pointer v).Faults (firstFault pointer v))
    (pointer : String) : (loadEntries pointer entries).Faults
      (entries.findSome? fun e => firstFault (childPointer pointer e.1) e.2) := by
  induction entries with
  | nil =>
    rw [loadEntries]
    exact .pure []
  | cons entry rest ih =>
    obtain ⟨key, v⟩ := entry
    rw [List.map_cons, List.forall_mem_cons] at h
    rw [loadEntries, findSome?_cons_eq_or]
    refine (h.1 _).bind fun g id g' _ => ?_
    exact ((ih h.2).map ((key, id) :: ·)) g'

theorem faults_loadBelow {b : Below Value}
    (h : ∀ v ∈ b.items, ∀ pointer, (load pointer v).Faults (firstFault pointer v))
    (pointer : String) : (loadBelow pointer b).Faults (belowFault pointer b) := by
  cases b with
  | nothing => exact .pure Below.nothing
  | one v =>
    rw [belowFault, Below.located, List.findSome?_singleton]
    exact (h v List.mem_cons_self pointer).map Below.one
  | list values =>
    have hlist := (faults_loadItems h pointer 0).map Below.list
    have hlocated : (Below.list values).located = (values.mapIdx fun i v =>
        (indexToken (0 + i), v)).map fun e => (some e.1, e.2) := by
      refine List.ext_getElem (by simp [Below.located]) fun i h h' => ?_
      simp [Below.located]
    rw [belowFault, hlocated, List.findSome?_map]
    exact hlist
  | map entries =>
    have hmap := (faults_loadEntries h pointer).map Below.map
    rw [belowFault, Below.located, List.findSome?_map]
    exact hmap

theorem faults_loadMembers {members : List (String × Value)}
    (h : ∀ m ∈ members, ∀ v ∈ (subvalues m.1 m.2).items, ∀ pointer,
      (load pointer v).Faults (firstFault pointer v)) (pointer : String) (d : Draft) :
    (loadMembers pointer d members).Faults
      (members.findSome? fun m => belowFault (childPointer pointer m.1) (subvalues m.1 m.2)) := by
  induction members generalizing d with
  | nil =>
    rw [loadMembers]
    exact .pure d
  | cons member rest ih =>
    obtain ⟨key, v⟩ := member
    rw [List.forall_mem_cons] at h
    rw [loadMembers_cons, findSome?_cons_eq_or]
    exact (faults_loadBelow h.1 _).bind fun g ids g' _ => ih h.2 _ g'

/-- After the other members it is settled whether `additionalItems` holds a schema. -/
theorem faults_loadAdditionalItems {ms : List (String × Value)} {d : Draft}
    (hadditional : ∀ v, d.additional v = holding ms "additionalItems" v)
    (h : ∀ m ∈ ms, ∀ v ∈ (holding ms m.1 m.2).items, ∀ pointer,
      (load pointer v).Faults (firstFault pointer v)) (pointer : String) :
    (loadAdditionalItems pointer d ms).Faults
      ((Entries.get? "additionalItems" ms).bind fun v =>
        belowFault (childPointer pointer "additionalItems") (holding ms "additionalItems" v)) := by
  rw [loadAdditionalItems_eq]
  cases hget : Entries.get? "additionalItems" ms with
  | none => exact .pure d
  | some v =>
    simp only [hadditional, Option.bind_some]
    rw [← Option.or_none (o := belowFault _ _)]
    refine (faults_loadBelow (h _ (Entries.mem_of_get? hget)) _).bind fun g ids g' _ => rfl

/-- Loading a value fails with the fault of its first position without a schema. -/
theorem faults_load {v : Value} (hkeys : v.DistinctKeys) (pointer : String) :
    (load pointer v).Faults (firstFault pointer v) := by
  induction hn : sizeOf v using Nat.strongRecOn generalizing v pointer with
  | ind n ih =>
    subst hn
    cases v with
    | bool b =>
      rw [load, firstFault_bool]
      exact fun g => rfl
    | object ms =>
      have hsub : ∀ m ∈ ms, ∀ v ∈ (holding ms m.1 m.2).items, ∀ pointer,
          (load pointer v).Faults (firstFault pointer v) := fun m hm v hv pointer =>
        have hholds : Holds ms v := ⟨m, hm, hv⟩
        ih _ hholds.sizeOf_lt (hholds.schemaAt.distinctKeys hkeys) pointer rfl
      rw [load_object, readDraft, firstFault_members hkeys.1, ← Option.or_none (o := .or _ _)]
      refine .bind (.bind ?_ ?_) ?_
      · exact faults_loadMembers (fun m hm v hv => hsub m hm v (mem_holding hv)) pointer {}
      · intro g d g' hd
        have hread := (loadsMembers_of_loadMembers hd).reads_of_any
        refine faults_loadAdditionalItems (fun v => ?_) hsub pointer g'
        rw [hread.additional hkeys.1, holding_additionalItems]
      · exact fun _ _ _ _ => rfl
    | _ => 
      rw [firstFault_of_not_isSchema rfl]
      simp only [load]
      exact fun g => rfl

/-! ## Positions and their pointers -/

theorem mem_places_object {ms : List (String × Value)} {p : Place} :
    p ∈ places (.object ms) ↔ p = ⟨[], .object ms⟩ ∨
      ∃ q ∈ heldPlaces ms, ∃ r ∈ places q.value, p = r.under q.tokens := by
  rw [places_object, List.mem_cons, List.mem_flatMap]
  simp only [List.mem_map, eq_comm]

theorem walk?_heldPlaces {ms : List (String × Value)} (hkeys : (Value.object ms).DistinctKeys)
    {p : Place} (h : p ∈ heldPlaces ms) : (Value.object ms).walk? p.tokens = some p.value := by
  obtain ⟨⟨key, value⟩, hm, ⟨token, u⟩, he, rfl⟩ := mem_heldPlaces.mp h
  have hvalue : (Value.object ms).walk? [key] = some value := by
    rw [Value.walk?_singleton]
    exact Entries.get?_of_mem hkeys.1 hm
  have hpart : value.walk? token.toList = some u := by
    have hone : ∀ {t}, (t, u) ∈ (Below.one value).located → value.walk? t.toList = some u := by
      rintro t ht
      cases List.mem_singleton.mp ht
      rfl
    rw [holding] at he
    split at he
    · exact hone he
    rw [subvalues] at he
    split at he
    next s _ =>
      rcases Slot.mem_located_below he with ⟨rfl, rfl⟩ | ⟨t, rfl, ht⟩
      · rfl
      · have hdistinct := distinctKeys_of_mem_members hkeys.2 hm
        exact (Value.walk?_singleton ..).trans (Entries.get?_of_mem (nodup_parts hdistinct) ht)
    next => cases he
  show (Value.object ms).walk? ([key] ++ token.toList) = some u
  rw [Value.walk?_append, hvalue, Option.bind_some, hpart]

/-- The tokens of a position lead to what stands there. -/
theorem walk?_places {v : Value} (hkeys : v.DistinctKeys) {p : Place} (h : p ∈ places v) :
    v.walk? p.tokens = some p.value := by
  induction hn : sizeOf v using Nat.strongRecOn generalizing v p with
  | ind n ih =>
    subst hn
    cases hv : v.members? with
    | none =>
      rw [places_of_members?_eq_none hv] at h
      cases List.mem_singleton.mp h
      rfl
    | some ms =>
      obtain rfl := Value.members?_eq_some_iff.mp hv
      rcases mem_places_object.mp h with rfl | ⟨q, hq, r, hr, rfl⟩
      · rfl
      · have hholds := holds_of_mem_heldPlaces hq
        have hrest := ih _ hholds.sizeOf_lt (hholds.schemaAt.distinctKeys hkeys) hr rfl
        rw [Place.under, Value.walk?_append, walk?_heldPlaces hkeys hq, Option.bind_some, hrest]

theorem at?_pointer {v : Value} (hkeys : v.DistinctKeys) {p : Place} (h : p ∈ places v) :
    v.at? p.pointer = some p.value :=
  (at?_foldl_childPointer v p.tokens).trans (walk?_places hkeys h)

/-- The positions without a schema for which there is no fall-back: that of the whole value, and
those in a map or a list of subschemas, anywhere below subschemas. -/
inductive ExpectedAt (v : Value) : Value → Prop
  | self : ExpectedAt v v
  | entry {ms entries : List (String × Value)} {key name : String} {k : MapKeyword} {u : Value} :
    SchemaAt v (.object ms) → (key, .object entries) ∈ ms → Slot.ofWord? key = some (.map k) →
    (name, u) ∈ entries → ExpectedAt v u
  | element {ms : List (String × Value)} {items : List Value} {key : String} {s : Slot}
    {u : Value} : SchemaAt v (.object ms) → (key, .array items) ∈ ms → Slot.ofWord? key = some s →
    s = .child .items ∨ (∃ k, s = .list k) → u ∈ items → ExpectedAt v u

theorem ExpectedAt.schemaAt {v u : Value} (h : ExpectedAt v u) : SchemaAt v u := by
  cases h with
  | self => exact .self
  | entry hms hm hs hu =>
    refine .member hms hm ?_
    rw [subvalues, hs]
    exact List.mem_map_of_mem hu
  | element hms hm hs hslot hu =>
    refine .member hms hm ?_
    rw [subvalues, hs]
    rcases hslot with rfl | ⟨k, rfl⟩ <;> exact hu

/-- What is no schema and stands at a schema position is expected to be one. -/
theorem SchemaAt.expectedAt {v u : Value} (h : SchemaAt v u) (hu : isSchema u = false) :
    ExpectedAt v u := by
  cases h with
  | self => exact .self
  | @member ms key value _ hms hm hmem =>
    rw [subvalues] at hmem
    split at hmem
    next s hs =>
      rcases s with k | k | k
      · rcases Slot.below_child k value with ⟨hv, hb⟩ | ⟨items, rfl, rfl, hb⟩ | ⟨-, -, hb⟩
        · rw [hb] at hmem
          cases List.mem_singleton.mp hmem
          rw [hv] at hu
          cases hu
        · exact .element hms hm hs (.inl rfl) hmem
        · rw [hb] at hmem
          cases hmem
      · cases value with
        | array items => exact .element hms hm hs (.inr ⟨k, rfl⟩) hmem
        | _ => cases hmem
      · cases value with
        | object entries =>
          obtain ⟨e, he, rfl⟩ := List.mem_map.mp hmem
          exact .entry hms hm hs he
        | _ => cases hmem
    next => cases hmem
  | furtherItems _ _ _ hs =>
    rw [hs] at hu
    cases hu

theorem self_mem_places (v : Value) : ⟨[], v⟩ ∈ places v := by
  cases hv : v.members? with
  | none =>
    rw [places_of_members?_eq_none hv]
    exact List.mem_singleton_self _
  | some ms =>
    obtain rfl := Value.members?_eq_some_iff.mp hv
    exact mem_places_object.mpr (.inl rfl)

/-- A position below a position is a position. -/
theorem under_mem_places {v : Value} {p r : Place} (hp : p ∈ places v) (hr : r ∈ places p.value) :
    r.under p.tokens ∈ places v := by
  induction hn : sizeOf v using Nat.strongRecOn generalizing v p with
  | ind n ih =>
    subst hn
    cases hv : v.members? with
    | none =>
      rw [places_of_members?_eq_none hv] at hp
      cases List.mem_singleton.mp hp
      exact hr
    | some ms =>
      obtain rfl := Value.members?_eq_some_iff.mp hv
      rcases mem_places_object.mp hp with rfl | ⟨q, hq, p, hpq, rfl⟩
      · exact hr
      · have hbelow := ih _ (holds_of_mem_heldPlaces hq).sizeOf_lt hpq hr rfl
        refine mem_places_object.mpr (.inr ⟨q, hq, _, hbelow, ?_⟩)
        simp only [Place.under, List.append_assoc]

theorem exists_heldPlace {ms : List (String × Value)} {u : Value} (h : Holds ms u) :
    ∃ p ∈ heldPlaces ms, p.value = u := by
  obtain ⟨m, hm, hu⟩ := h
  rw [← Below.map_snd_located] at hu
  obtain ⟨e, he, rfl⟩ := List.mem_map.mp hu
  exact ⟨_, mem_heldPlaces.mpr ⟨m, hm, e, he, rfl⟩, rfl⟩

/-- The places of a value are where subschemas stand in it. -/
theorem exists_place_iff {v u : Value} : (∃ p ∈ places v, p.value = u) ↔ SchemaAt v u := by
  constructor
  · rintro ⟨p, hp, rfl⟩
    induction hn : sizeOf v using Nat.strongRecOn generalizing v p with
    | ind n ih =>
      subst hn
      cases hv : v.members? with
      | none =>
        rw [places_of_members?_eq_none hv] at hp
        cases List.mem_singleton.mp hp
        exact .self
      | some ms =>
        obtain rfl := Value.members?_eq_some_iff.mp hv
        rcases mem_places_object.mp hp with rfl | ⟨q, hq, r, hr, rfl⟩
        · exact .self
        · have hholds := holds_of_mem_heldPlaces hq
          exact hholds.schemaAt.trans (ih _ hholds.sizeOf_lt r hr rfl)
  · -- A held subschema has a place below that of the object.
    have held : ∀ {ms u}, (∃ p ∈ places v, p.value = .object ms) → Holds ms u →
        ∃ p ∈ places v, p.value = u := by
      rintro ms u ⟨p, hp, hv⟩ hu
      obtain ⟨q, hq, rfl⟩ := exists_heldPlace hu
      have hplace : q ∈ places p.value :=
        hv ▸ mem_places_object.mpr (.inr ⟨q, hq, _, self_mem_places _, by simp [Place.under]⟩)
      exact ⟨_, under_mem_places hp hplace, rfl⟩
    intro h
    induction h with
    | self => exact ⟨_, self_mem_places v, rfl⟩
    | member _ hm hu ih => exact held ih (holds_of_mem_subvalues hm hu)
    | furtherItems _ hl hm hs ih => exact held ih (holds_additionalItems hl hm hs)

/-! ## The fault of a value -/

theorem firstFault_eq_some_iff {pointer : String} {v : Value} {e : LoadFault} :
    firstFault pointer v = some e ↔ ∃ before p after, places v = before ++ p :: after ∧
      (∀ q ∈ before, isSchema q.value) ∧ isSchema p.value = false ∧
      e = ⟨p.tokens.foldl childPointer pointer, p.value.kind⟩ := by
  have hnone : ∀ q : Place, q.fault? pointer = none ↔ isSchema q.value := by
    intro q
    rw [Place.fault?]
    split
    next h => exact iff_of_true rfl h
    next h => exact iff_of_false nofun h
  have hsome : ∀ p : Place, p.fault? pointer = some e ↔ isSchema p.value = false ∧
      e = ⟨p.tokens.foldl childPointer pointer, p.value.kind⟩ := by
    intro p
    rw [Place.fault?]
    split
    next h => exact iff_of_false nofun fun hp => Bool.false_ne_true (hp.1.symm.trans h)
    next h =>
      rw [Bool.not_eq_true] at h
      exact ⟨fun he => ⟨h, (Option.some.inj he).symm⟩, fun hp => congrArg some hp.2.symm⟩
  simp only [firstFault, List.findSome?_eq_some_iff, hnone, hsome]
  constructor
  · rintro ⟨before, p, after, h, ⟨hp, he⟩, hbefore⟩
    exact ⟨before, p, after, h, hbefore, hp, he⟩
  · rintro ⟨before, p, after, h, hbefore, hp, he⟩
    exact ⟨before, p, after, h, ⟨hp, he⟩, hbefore⟩

namespace Graph

theorem ofValue_eq_error_iff {v : Value} (hkeys : v.DistinctKeys) {e : LoadFault} :
    ofValue v = .error e ↔ firstFault "#" v = some e := by
  have hload : (load "#" v).result {} = load "#" v {} := rfl
  rw [← faults_load hkeys "#" {}, Load.fault?, hload, ofValue, insert]
  rcases load "#" v {} with ⟨e' | id, g⟩ <;> simp

/-- Loading fails exactly if something that is expected to be a schema is none. The message names
the first such position, with `additionalItems` last in its object, and the kind of what stands
there; following the pointer in the value leads there. -/
theorem ofValue_eq_error {v : Value} (hkeys : v.DistinctKeys) :
    ((∃ e, ofValue v = .error e) ↔ ∃ u, ExpectedAt v u ∧ isSchema u = false) ∧
    ∀ e, ofValue v = .error e → ∃ before p after, places v = before ++ p :: after ∧
      (∀ q ∈ before, isSchema q.value) ∧ isSchema p.value = false ∧ ExpectedAt v p.value ∧
      v.at? p.pointer = some p.value ∧
      e.message = "Schema at '" ++ p.pointer ++ "' must be an object or a boolean, found " ++
        p.value.kind := by
  have first : ∀ e, ofValue v = .error e → ∃ before p after, places v = before ++ p :: after ∧
      (∀ q ∈ before, isSchema q.value) ∧ isSchema p.value = false ∧ ExpectedAt v p.value ∧
      v.at? p.pointer = some p.value ∧ e = ⟨p.pointer, p.value.kind⟩ := by
    intro e he
    obtain ⟨before, p, after, hplaces, hbefore, hp, rfl⟩ :=
      firstFault_eq_some_iff.mp ((ofValue_eq_error_iff hkeys).mp he)
    have hmem : p ∈ places v := hplaces ▸ List.mem_append_right _ List.mem_cons_self
    have hexpected := (exists_place_iff.mp ⟨p, hmem, rfl⟩).expectedAt hp
    exact ⟨before, p, after, hplaces, hbefore, hp, hexpected, at?_pointer hkeys hmem, rfl⟩
  refine ⟨⟨?_, ?_⟩, fun e he => ?_⟩
  · rintro ⟨e, he⟩
    obtain ⟨-, p, -, -, -, hp, hexpected, -⟩ := first e he
    exact ⟨p.value, hexpected, hp⟩
  · rintro ⟨u, hexpected, hu⟩
    obtain ⟨p, hp, rfl⟩ := exists_place_iff.mpr hexpected.schemaAt
    have hfault : firstFault "#" v ≠ none := by
      intro hnone
      have := List.findSome?_eq_none_iff.mp hnone p hp
      rw [Place.fault?, hu] at this
      cases this
    obtain ⟨e, he⟩ := Option.ne_none_iff_exists'.mp hfault
    exact ⟨e, (ofValue_eq_error_iff hkeys).mpr he⟩
  · obtain ⟨before, p, after, hplaces, hbefore, hp, hexpected, hat, rfl⟩ := first e he
    exact ⟨before, p, after, hplaces, hbefore, hp, hexpected, hat, rfl⟩

/-- A value with two faults, of which that below `items` comes first. -/
def twoFaults : Value :=
  .object [("additionalItems", .object [("allOf", .array [.null])]),
    ("items", .array [.bool true, .object [("properties", .object [("a/b", .string "")])]])]

theorem ofValue_eq_error_twoFaults : twoFaults.DistinctKeys ∧
    ∃ e, ofValue twoFaults = .error e ∧
      e.message =
        "Schema at '#/items/1/properties/a~1b' must be an object or a boolean, found string" ∧
      ∃ before p after, places twoFaults = before ++ p :: after ∧
        (∀ q ∈ before, isSchema q.value) ∧ isSchema p.value = false ∧
        ExpectedAt twoFaults p.value ∧ twoFaults.at? p.pointer = some p.value ∧
        e.message = "Schema at '" ++ p.pointer ++ "' must be an object or a boolean, found " ++
          p.value.kind := by
  have hkeys : twoFaults.DistinctKeys := by
    simp [Value.DistinctKeys, Value.DistinctKeysMembers, Value.DistinctKeysList, twoFaults]
  have hfault : firstFault "#" twoFaults = some ⟨"#/items/1/properties/a~1b", "string"⟩ := by
    rw [← faults_load hkeys "#" {}]
    decide +kernel
  have herror := (ofValue_eq_error_iff hkeys).mpr hfault
  exact ⟨hkeys, _, herror, by decide +kernel, (ofValue_eq_error hkeys).2 _ herror⟩

end Graph

end Schema

end OpenApi
