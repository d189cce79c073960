import OpenApi.Proofs.Schema.Held

/-!
# Newer forms

A schema may be written with older forms. `modern` writes it with the newer ones instead, wherever a
schema stands: definitions under `$defs`, listed items under `prefixItems` with further items under
`items`, and `null` among the types instead of `nullable` beside them.

* `Slot.held_newer`, `holds_newer_iff`: the newer members hold the newer forms of the subschemas;
* `shownTypes_newer`, `nullableNote_newer`, `additionalNote_newer`: the members come to the same
  together;
* `Regular.modern`: no schema gets a key twice or another form beside an older one.
-/

namespace OpenApi.Schema

open Json

/-! ## Definitions -/

/-- The value with these subschemas in it. Without any it is as it was. -/
def Below.within (value : Value) : Below Value → Value
  | .nothing => value
  | .one v => v
  | .list vs => .array vs
  | .map es => .object es

/-- Whether `nullable` adds `null` to the declared types. -/
def addsNull (ms : List (String × Value)) : Bool :=
  allowsNull ms && !(declaredTypes (Entries.get? "type" ms)).isEmpty

/-- A `type` with `null` behind the names that it declares. -/
def withNull (value : Value) : Value := .ofStrings ((typesOf? value).getD [] ++ ["null"])

/-- The newer word of a member, told from what it holds. -/
def newerWord (key : String) : Below Value → String
  | .nothing => key
  | .one _ => if key = "additionalItems" then "items" else key
  | .list _ => if key = "items" then "prefixItems" else key
  | .map _ => if key = "definitions" then "$defs" else key

mutual

/-- The schema with newer forms in place of older ones, as are all schemas in it. -/
def modern : Value → Value
  | .object ms => .object (modernMembers ms ms)
  | v => v
termination_by structural v => v

/-- Some of the members of a schema with newer forms. -/
def modernMembers (all : List (String × Value)) : List (String × Value) → List (String × Value)
  | [] => []
  | (key, value) :: rest =>
    let value' :=
      if addsNull all ∧ key = "type" then withNull value
      else
        match holding all key value with
        | .nothing => value
        | .one _ => modern value
        | .list _ => modernList value
        | .map _ => modernMap value
    if addsNull all ∧ key = "nullable" then modernMembers all rest
    else (newerWord key (holding all key value), value') :: modernMembers all rest
termination_by structural members => members

/-- The array of schemas with newer forms. -/
def modernList : Value → Value
  | .array items => .array (modernItems items)
  | v => v
termination_by structural v => v

/-- Schemas with newer forms. -/
def modernItems : List Value → List Value
  | [] => []
  | v :: vs => modern v :: modernItems vs
termination_by structural items => items

/-- The map of schemas with newer forms. -/
def modernMap : Value → Value
  | .object entries => .object (modernEntries entries)
  | v => v
termination_by structural v => v

/-- Schemas under keys with newer forms. -/
def modernEntries : List (String × Value) → List (String × Value)
  | [] => []
  | (key, v) :: rest => (key, modern v) :: modernEntries rest
termination_by structural entries => entries

end

section

variable (ms : List (String × Value))

/-- A member with newer forms; `nullable` is left out where `null` is added to the types. -/
def newerMember (m : String × Value) : Option (String × Value) :=
  if addsNull ms ∧ m.1 = "nullable" then none
  else some (newerWord m.1 (holding ms m.1 m.2),
    if addsNull ms ∧ m.1 = "type" then withNull m.2
    else ((holding ms m.1 m.2).each modern).within m.2)

/-- The members of a schema with newer forms. -/
def newer : List (String × Value) := ms.filterMap (newerMember ms)

end

/-! ## One member -/

section

variable {ms : List (String × Value)}

theorem modernItems_eq (vs : List Value) : modernItems vs = vs.map modern := by
  induction vs with
  | nil => rfl
  | cons v vs ih => rw [modernItems, ih, List.map_cons]

theorem modernEntries_eq (es : List (String × Value)) :
    modernEntries es = es.map fun e => (e.1, modern e.2) := by
  induction es with
  | nil => rfl
  | cons e es ih => rw [modernEntries, ih, List.map_cons]

/-- What stands below a keyword is its value, or the parts of it. -/
theorem Slot.below_cases (s : Slot) (v : Value) :
    s.below v = .nothing ∨ s.below v = .one v ∨ (∃ vs, v = .array vs ∧ s.below v = .list vs) ∨
      ∃ es, v = .object es ∧ s.below v = .map es := by
  rcases s with k | k | k
  · rcases Slot.below_child k v with ⟨-, hb⟩ | ⟨vs, -, hv, hb⟩ | ⟨-, -, hb⟩
    · exact .inr (.inl hb)
    · exact .inr (.inr (.inl ⟨vs, hv, hb⟩))
    · exact .inl hb
  · cases v with
    | array vs => exact .inr (.inr (.inl ⟨vs, rfl, rfl⟩))
    | _ => exact .inl rfl
  · cases v with
    | object es => exact .inr (.inr (.inr ⟨es, rfl, rfl⟩))
    | _ => exact .inl rfl

theorem holding_cases (ms : List (String × Value)) (key : String) (v : Value) :
    holding ms key v = .nothing ∨ holding ms key v = .one v ∨
      (∃ vs, v = .array vs ∧ holding ms key v = .list vs) ∨
      ∃ es, v = .object es ∧ holding ms key v = .map es := by
  rw [holding]
  split
  · exact .inr (.inl rfl)
  · rw [subvalues]
    split
    · exact Slot.below_cases _ v
    · exact .inl rfl

theorem modern_object (ms : List (String × Value)) : modern (.object ms) = .object (newer ms) := by
  have members : ∀ rest, modernMembers ms rest = rest.filterMap (newerMember ms) := by
    intro rest
    induction rest with
    | nil => rfl
    | cons m rest ih =>
      obtain ⟨key, v⟩ := m
      rw [modernMembers, List.filterMap_cons, newerMember, ih]
      split
      next => rfl
      next =>
        rcases holding_cases ms key v with h | h | ⟨vs, rfl, h⟩ | ⟨es, rfl, h⟩ <;>
          simp only [h, Below.each, Below.within, modernList, modernMap, modernItems_eq,
            modernEntries_eq]
  rw [modern, members, newer]

theorem newerMember_eq_none {m : String × Value} (h : newerMember ms m = none) :
    m.1 = "nullable" := by
  rw [newerMember] at h
  split at h
  next hc => exact hc.2
  next => cases h

theorem newerMember_fst {m m' : String × Value} (h : newerMember ms m = some m') :
    m'.1 = newerWord m.1 (holding ms m.1 m.2) := by
  rw [newerMember] at h
  split at h
  · cases h
  · cases h
    rfl

theorem isSchema_modern (v : Value) : isSchema (modern v) = isSchema v := by
  cases v <;> rfl

theorem Slot.below_within (s : Slot) (v : Value) :
    s.below (((s.below v).each modern).within v) = (s.below v).each modern := by
  rcases s with k | k | k
  · rcases Slot.below_child k v with ⟨hv, hb⟩ | ⟨vs, rfl, rfl, -⟩ | ⟨-, -, hb⟩
    · rw [hb, Below.each, Below.within]
      rcases Slot.below_child k (modern v) with ⟨-, hm⟩ | ⟨_, -, hm, -⟩ | ⟨hm, -, -⟩
      · exact hm
      · rw [← isSchema_modern, hm] at hv
        cases hv
      · rw [isSchema_modern, hv] at hm
        cases hm
    · rfl
    · rw [hb]
      exact hb
  · cases v <;> rfl
  · cases v <;> rfl

/-- The ways in which a member gets its newer word: three words have one, the others stay. -/
inductive Newer (ms : List (String × Value)) : String → Value → String → Prop
  | definitions {es : List (String × Value)} : Newer ms "definitions" (.object es) "$defs"
  | items {vs : List Value} : Newer ms "items" (.array vs) "prefixItems"
  | additionalItems {v : Value} : listsItems ms → isSchema v → Newer ms "additionalItems" v "items"
  | same {key : String} {v : Value} : (key = "definitions" → v.members? = none) →
    (key = "items" → v.items? = none) → (key = "additionalItems" → holding ms key v = .nothing) →
    Newer ms key v key

theorem newerWord_of_ne {key : String} (hd : key ≠ "definitions") (hi : key ≠ "items")
    (ha : key ≠ "additionalItems") (b : Below Value) : newerWord key b = key := by
  cases b <;> simp [newerWord, hd, hi, ha]

theorem newer_newerWord (ms : List (String × Value)) (key : String) (v : Value) :
    Newer ms key v (newerWord key (holding ms key v)) := by
  by_cases hd : key = "definitions"
  · subst hd
    rw [holding_of_ne (by decide), subvalues, Slot.ofWord?_definitions]
    cases v with
    | object es => exact .definitions
    | _ => exact .same (fun _ => rfl) (fun h => absurd h (by decide)) fun h => absurd h (by decide)
  by_cases hi : key = "items"
  · subst hi
    rw [holding_of_ne (by decide), show subvalues "items" v = (Slot.child .items).below v from
      subvalues_word (.child .items) v]
    cases v with
    | array vs => exact .items
    | _ => exact .same (fun h => absurd h (by decide)) (fun _ => rfl) fun h => absurd h (by decide)
  by_cases ha : key = "additionalItems"
  · subst ha
    by_cases hc : listsItems ms ∧ isSchema v
    · rw [holding, if_pos ⟨rfl, hc⟩]
      exact .additionalItems hc.1 hc.2
    · have hnone : holding ms "additionalItems" v = .nothing := by
        rw [holding, if_neg fun h => hc h.2]
        rfl
      rw [hnone]
      exact .same (fun h => absurd h (by decide)) (fun h => absurd h (by decide)) fun _ => hnone
  · rw [newerWord_of_ne hd hi ha]
    exact .same (fun h => absurd h hd) (fun h => absurd h hi) fun h => absurd h ha

theorem below_modern_items {v : Value} (h : isSchema v) :
    (Slot.child .items).below (modern v) = .one (modern v) := by
  cases v <;> first | rfl | cases h

/-- A newer member holds the newer forms of what the member held. -/
theorem subvalues_newer {m m' : String × Value} (h : newerMember ms m = some m') :
    subvalues m'.1 m'.2 = (holding ms m.1 m.2).each modern := by
  obtain ⟨key, v⟩ := m
  simp only [newerMember] at h
  split at h
  · cases h
  cases h
  have hnewer := newer_newerWord ms key v
  generalize newerWord key (holding ms key v) = word at hnewer
  cases hnewer with
  | definitions =>
    rw [if_neg (by simp), holding_of_ne (by simp)]
    rfl
  | items =>
    rw [if_neg (by simp), holding_of_ne (by simp)]
    rfl
  | additionalItems hl hv =>
    rw [if_neg (by simp), holding, if_pos ⟨rfl, hl, hv⟩]
    exact (subvalues_word (.child .items) (modern v)).trans (below_modern_items hv)
  | same _ _ ha =>
    by_cases hk : key = "additionalItems"
    · subst hk
      rw [if_neg (by simp), ha rfl]
      rfl
    · rw [holding_of_ne hk, subvalues, subvalues]
      cases hs : Slot.ofWord? key with
      | none => rfl
      | some s =>
        have ht : key ≠ "type" := by
          rintro rfl
          cases hs
        rw [if_neg fun hc => ht hc.2]
        exact s.below_within v

end

/-! ## All members -/

section

variable {ms : List (String × Value)}

theorem Newer.of_items {key : String} {v : Value} (h : Newer ms key v "items") :
    key = "additionalItems" ∧ holding ms key v = .one v ∨ key = "items" ∧ v.items? = none := by
  generalize hw : "items" = word at h
  cases h with
  | definitions => simp at hw
  | items => simp at hw
  | additionalItems hl hv => exact .inl ⟨rfl, if_pos ⟨rfl, hl, hv⟩⟩
  | same _ hi =>
    subst hw
    exact .inr ⟨rfl, hi rfl⟩

theorem Newer.of_definitions {key : String} {v : Value} (h : Newer ms key v "definitions") :
    key = "definitions" ∧ v.members? = none := by
  generalize hw : "definitions" = word at h
  cases h with
  | same hd =>
    subst hw
    exact ⟨rfl, hd rfl⟩
  | _ => simp at hw

theorem Newer.of_defs {key : String} {v : Value} (h : Newer ms key v "$defs") :
    key = "definitions" ∧ v.members? ≠ none ∨ key = "$defs" := by
  generalize hw : "$defs" = word at h
  cases h with
  | definitions => exact .inl ⟨rfl, Option.some_ne_none _⟩
  | same => exact .inr rfl
  | _ => simp at hw

/-- A member with newer forms comes from one with the same meaning. -/
theorem exists_of_mem_newer {word : String} {v' : Value} (h : (word, v') ∈ newer ms) :
    ∃ key v, (key, v) ∈ ms ∧ Newer ms key v word ∧
      subvalues word v' = (holding ms key v).each modern := by
  obtain ⟨⟨key, v⟩, hm, hn⟩ := List.mem_filterMap.mp h
  have hword : word = _ := newerMember_fst hn
  exact ⟨key, v, hm, hword ▸ newer_newerWord ms key v, subvalues_newer hn⟩

/-- No items are listed in the older form. -/
theorem listsItems_newer (ms : List (String × Value)) : listsItems (newer ms) = false := by
  rw [Bool.eq_false_iff]
  intro hl
  obtain ⟨vs, hget⟩ := listsItems_iff.mp hl
  obtain ⟨key, v, -, hnewer, hsub⟩ := exists_of_mem_newer (Entries.mem_of_get? hget)
  change Below.list vs = _ at hsub
  rcases hnewer.of_items with ⟨rfl, hone⟩ | ⟨rfl, hv⟩
  · rw [hone] at hsub
    cases hsub
  · rw [holding_of_ne (by simp)] at hsub
    change _ = ((Slot.child .items).below v).each modern at hsub
    rcases Slot.below_child .items v with ⟨-, hb⟩ | ⟨vs, -, rfl, -⟩ | ⟨-, -, hb⟩
    · rw [hb] at hsub
      cases hsub
    · cases hv
    · rw [hb] at hsub
      cases hsub

/-- No definitions stand under the older word. -/
theorem hasDefinitions_newer (ms : List (String × Value)) : hasDefinitions (newer ms) = false := by
  rw [Bool.eq_false_iff]
  intro hd
  obtain ⟨es, hget⟩ := hasDefinitions_iff.mp hd
  obtain ⟨key, v, -, hnewer, hsub⟩ := exists_of_mem_newer (Entries.mem_of_get? hget)
  obtain ⟨rfl, hv⟩ := hnewer.of_definitions
  rw [holding_of_ne (by simp)] at hsub
  change Below.map es = ((Slot.map .defs).below v).each modern at hsub
  cases v with
  | object => cases hv
  | _ => cases hsub

theorem olderWord_newer (word : String) : olderWord (newer ms) word = word := by
  rw [olderWord, hasDefinitions_newer, listsItems_newer]
  simp

/-- The newer members hold the newer forms of what the members hold, and nothing else. -/
theorem holds_newer_iff {u' : Value} :
    Holds (newer ms) u' ↔ ∃ u, Holds ms u ∧ modern u = u' := by
  constructor
  · intro h
    rcases h.cases with ⟨⟨word, v'⟩, hm', hu'⟩ | ⟨hl, -, -⟩
    · obtain ⟨key, v, hm, -, hsub⟩ := exists_of_mem_newer hm'
      rw [hsub, Below.items_each] at hu'
      obtain ⟨u, hu, rfl⟩ := List.mem_map.mp hu'
      exact ⟨u, ⟨_, hm, hu⟩, rfl⟩
    · rw [listsItems_newer] at hl
      cases hl
  · rintro ⟨u, ⟨⟨key, v⟩, hm, hu⟩, rfl⟩
    cases hn : newerMember ms (key, v) with
    | some m' =>
      refine holds_of_mem_subvalues (List.mem_filterMap.mpr ⟨_, hm, hn⟩) ?_
      rw [subvalues_newer hn, Below.items_each]
      exact List.mem_map_of_mem hu
    | none =>
      -- Only `nullable` is left out, and it holds nothing.
      obtain rfl : key = "nullable" := newerMember_eq_none hn
      rw [holding_of_ne (by simp)] at hu
      cases hu

end

section

variable {ms : List (String × Value)} (hkeys : (ms.map Prod.fst).Nodup) (hu : Unambiguous ms)

include hkeys hu

/-- The word of a member is the older word of its newer word. -/
theorem olderWord_newerWord {key : String} {v : Value} (hm : (key, v) ∈ ms) :
    olderWord ms (newerWord key (holding ms key v)) = key := by
  have hget := Entries.get?_of_mem hkeys hm
  have hnewer := newer_newerWord ms key v
  generalize newerWord key (holding ms key v) = word at hnewer
  cases hnewer with
  | definitions => rw [olderWord_defs, if_pos (hasDefinitions_iff.mpr ⟨_, hget⟩)]
  | items => rw [olderWord_prefixItems, if_pos (listsItems_iff.mpr ⟨_, hget⟩)]
  | additionalItems hl => rw [olderWord_items, if_pos hl]
  | same _ hi =>
    rw [olderWord]
    split
    next hc =>
      obtain ⟨rfl, hd⟩ := hc
      obtain ⟨es, hdefinitions⟩ := hasDefinitions_iff.mp hd
      rcases hu.definitions with hnone | hnone
      · rw [hget] at hnone
        cases hnone
      · rw [hdefinitions] at hnone
        cases hnone
    split
    next hc =>
      obtain ⟨rfl, hl⟩ := hc
      rcases hu.items with hnone | hnone
      · rw [hget] at hnone
        cases hnone
      · rw [hl] at hnone
        cases hnone
    split
    next hc =>
      obtain ⟨rfl, hl⟩ := hc
      obtain ⟨vs, hitems⟩ := listsItems_iff.mp hl
      rw [hget] at hitems
      cases hitems
      cases hi rfl
    next => rfl

theorem olderWord_of_newerMember {m m' : String × Value} (hm : m ∈ ms)
    (h : newerMember ms m = some m') : olderWord ms m'.1 = m.1 := by
  rw [newerMember_fst h]
  exact olderWord_newerWord hkeys hu hm

theorem nodup_newer : ((newer ms).map Prod.fst).Nodup :=
  Entries.nodup_filterMap hkeys fun _ hm _ => olderWord_of_newerMember hkeys hu hm

/-- A newer member is made of the one under its older word. -/
theorem get?_newer (word : String) : Entries.get? word (newer ms) =
    (Entries.get? (olderWord ms word) ms).bind fun v =>
      ((newerMember ms (olderWord ms word, v)).filter (·.1 = word)).map Prod.snd :=
  Entries.get?_filterMap hkeys (fun _ hm _ => olderWord_of_newerMember hkeys hu hm) word

theorem unambiguous_newer : Unambiguous (newer ms) where
  definitions := by
    cases hget : Entries.get? "definitions" (newer ms) with
    | none => exact .inr rfl
    | some v' =>
      refine .inl (Entries.get?_eq_none_iff.mpr fun hm => ?_)
      obtain ⟨key, v, hdefinitions, hnewer, -⟩ := exists_of_mem_newer (Entries.mem_of_get? hget)
      obtain ⟨rfl, hv⟩ := hnewer.of_definitions
      obtain ⟨⟨word, w'⟩, hmem, rfl⟩ := List.mem_map.mp hm
      obtain ⟨key, w, hdefs, hnewer', -⟩ := exists_of_mem_newer hmem
      have hget := Entries.get?_of_mem hkeys hdefinitions
      rcases hnewer'.of_defs with ⟨rfl, hw⟩ | rfl
      · rw [Entries.get?_of_mem hkeys hdefs] at hget
        cases hget
        exact hw hv
      · rcases hu.definitions with hnone | hnone
        · exact Entries.get?_eq_none_iff.mp hnone (List.mem_map_of_mem hdefs)
        · rw [hget] at hnone
          cases hnone
  items := .inr (listsItems_newer ms)

omit hkeys hu in
/-- What belongs into a slot gets the word of the slot, unless it is no schema. -/
theorem newerWord_olderWord {s : Slot} {v : Value}
    (hget : Entries.get? (olderWord ms s.word) ms = some v) :
    newerWord (olderWord ms s.word) (holding ms (olderWord ms s.word) v) = s.word ∨
      holding ms (olderWord ms s.word) v = .nothing := by
  by_cases hd : s = .map .defs
  · subst hd
    rw [show (Slot.map .defs).word = "$defs" from rfl, olderWord_defs] at hget ⊢
    split at hget
    next hdefs =>
      obtain ⟨es, hes⟩ := hasDefinitions_iff.mp hdefs
      rw [hget] at hes
      cases hes
      rw [if_pos hdefs, holding_of_ne (by simp)]
      exact .inl rfl
    next hdefs =>
      rw [if_neg hdefs]
      exact .inl (newerWord_of_ne (by simp) (by simp) (by simp) _)
  by_cases hp : s = .list .prefixItems
  · subst hp
    rw [show (Slot.list .prefixItems).word = "prefixItems" from rfl, olderWord_prefixItems]
      at hget ⊢
    split at hget
    next hl =>
      obtain ⟨vs, hvs⟩ := listsItems_iff.mp hl
      rw [hget] at hvs
      cases hvs
      rw [if_pos hl, holding_of_ne (by simp)]
      exact .inl rfl
    next hl =>
      rw [if_neg hl]
      exact .inl (newerWord_of_ne (by simp) (by simp) (by simp) _)
  by_cases hi : s = .child .items
  · subst hi
    rw [show (Slot.child .items).word = "items" from rfl, olderWord_items] at hget ⊢
    split at hget
    next hl =>
      rw [if_pos hl, holding_additionalItems, hl, Bool.true_and]
      split
      · exact .inl rfl
      · exact .inr rfl
    next hl =>
      rw [if_neg hl, holding_of_ne (by simp)]
      change newerWord "items" ((Slot.child .items).below v) = _ ∨ (Slot.child .items).below v = _
      rcases Slot.below_child .items v with ⟨-, hb⟩ | ⟨vs, -, rfl, -⟩ | ⟨-, -, hb⟩
      · rw [hb]
        exact .inl rfl
      · exact absurd (listsItems_iff.mpr ⟨vs, hget⟩) hl
      · exact .inr hb
  · rw [Slot.olderWord_of_ne hd hp hi]
    refine .inl (newerWord_of_ne ?_ (fun h => hi (Slot.word_injective h)) ?_ _)
    · exact (Keyword.slot s).word_ne_definitions
    · exact (Keyword.slot s).word_ne_additionalItems

/-- The newer members hold in a slot the newer forms of what the members hold there. -/
theorem Slot.held_newer (s : Slot) : s.held (newer ms) = (s.held ms).each modern := by
  rw [Slot.held_of_olderWord (olderWord_newer s.word), get?_newer hkeys hu, Slot.held]
  cases hget : Entries.get? (olderWord ms s.word) ms with
  | none => rfl
  | some v =>
    rw [Option.bind_some]
    change _ = (holding ms _ v).each modern
    cases hm : newerMember ms (olderWord ms s.word, v) with
    | none =>
      rw [show olderWord ms s.word = "nullable" from newerMember_eq_none hm,
        holding_of_ne (by simp)]
      rfl
    | some m' =>
      have hsub := subvalues_newer hm
      have hword := newerMember_fst hm
      simp only at hsub hword
      by_cases hs : m'.1 = s.word
      · rw [Option.filter_some, if_pos (by simpa using hs), Option.map_some, Option.map_some,
          Option.getD_some, ← hsub, hs, subvalues_word]
      · rw [Option.filter_some, if_neg (by simpa using hs),
          (newerWord_olderWord hget).resolve_left fun h => hs (hword.trans h)]
        rfl

theorem nodup_keys_held_newer {s : Slot} (hheld : (s.held ms).keys.Nodup) :
    (s.held (newer ms)).keys.Nodup := by
  rwa [Slot.held_newer hkeys hu, Below.keys_each]

end

/-! ## What is no schema -/

section

variable {ms : List (String × Value)}

/-- A member that holds no schema stays, unless `null` is added to the types. -/
theorem newerMember_of_nothing {key : String} {v : Value} (h : holding ms key v = .nothing)
    (hnull : addsNull ms → key ≠ "nullable" ∧ key ≠ "type") :
    newerMember ms (key, v) = some (key, v) := by
  simp only [newerMember, h]
  rw [if_neg fun hc => (hnull hc.1).1 hc.2, if_neg fun hc => (hnull hc.1).2 hc.2]
  rfl

/-- The members that stay are kept in order if all others are left out before and afterwards. -/
theorem filter_newer {p : String × Value → Bool}
    (h : ∀ m ∈ ms, newerMember ms m = some m ∨
      p m = false ∧ ∀ m', newerMember ms m = some m' → p m' = false) :
    (newer ms).filter p = ms.filter p := by
  rw [newer, List.filter_filterMap, ← List.filterMap_eq_filter]
  refine List.filterMap_congr fun m hm => ?_
  rcases h m hm with hself | ⟨hp, hp'⟩
  · rw [hself, Option.filter_some, Option.guard]
  · rw [Option.guard, if_neg (by simp [hp])]
    cases hn : newerMember ms m with
    | none => rfl
    | some m' => rw [Option.filter_some, if_neg (by simp [hp' m' hn])]

theorem Newer.word_cases {key word : String} {v : Value} (h : Newer ms key v word) :
    word = key ∨ ∃ s : Slot, s.word = word := by
  cases h with
  | definitions => exact .inr ⟨.map .defs, rfl⟩
  | items => exact .inr ⟨.list .prefixItems, rfl⟩
  | additionalItems => exact .inr ⟨.child .items, rfl⟩
  | same => exact .inl rfl

/-- Members under words that are no keywords stay in order. -/
theorem filter_newer_of_words {p : String → Bool} (h : ∀ word, p word →
      Slot.ofWord? word = none ∧ word ≠ "additionalItems" ∧ word ≠ "nullable" ∧ word ≠ "type") :
    (newer ms).filter (fun m => p m.1) = ms.filter fun m => p m.1 := by
  have hslot (s : Slot) : p s.word = false := by
    rw [Bool.eq_false_iff]
    intro hp
    have hnone := (h s.word hp).1
    rw [Slot.ofWord?_word] at hnone
    cases hnone
  refine filter_newer fun m hm => ?_
  obtain ⟨key, v⟩ := m
  cases hp : p key with
  | true =>
    obtain ⟨hs, ha, hn, ht⟩ := h key hp
    have hnothing : holding ms key v = .nothing := by
      rw [holding_of_ne ha, subvalues, hs]
    exact .inl (newerMember_of_nothing hnothing fun _ => ⟨hn, ht⟩)
  | false =>
    refine .inr ⟨rfl, fun m' hm' => ?_⟩
    rw [newerMember_fst hm']
    rcases (newer_newerWord ms key v).word_cases with hw | ⟨s, hw⟩
    · rwa [hw]
    · rw [← hw]
      exact hslot s

theorem filter_extensions_newer (ms : List (String × Value)) :
    (newer ms).filter (fun m => Text.startsWith "x-" m.1) =
      ms.filter fun m => Text.startsWith "x-" m.1 := by
  refine filter_newer_of_words fun word hw => ?_
  have hr : isReserved word := by
    rw [isReserved, hw]
    rfl
  refine ⟨Slot.ofWord?_of_isReserved hr, ?_, ?_, ?_⟩ <;> rintro rfl <;> cases hw

theorem filter_annotations_newer (ms : List (String × Value)) :
    (newer ms).filter (fun m => annotationWords.contains m.1) =
      ms.filter fun m => annotationWords.contains m.1 := by
  refine filter_newer_of_words fun word hw => ?_
  have hr : isReserved word := by
    rw [isReserved, hw, Bool.or_true]
    rfl
  refine ⟨Slot.ofWord?_of_isReserved hr, ?_, ?_, ?_⟩ <;> rintro rfl <;> cases hw

/-- A member that holds a schema is read and not kept. -/
theorem isKept_of_subvalues {key : String} {v : Value}
    (h : (subvalues key v).isNothing = false) : isKept key v = false := by
  rw [subvalues] at h
  rw [isKept]
  cases hs : Slot.ofWord? key with
  | none =>
    rw [hs] at h
    cases h
  | some s =>
    rw [hs] at h
    exact h

/-- Where `null` is added to the types, `nullable` is true and there are types. -/
theorem exists_of_addsNull (h : addsNull ms) : Entries.get? "nullable" ms = some (.bool true) ∧
    ∃ v names, Entries.get? "type" ms = some v ∧ typesOf? v = some names := by
  rw [addsNull, Bool.and_eq_true, Bool.not_eq_true'] at h
  obtain ⟨hnull, htypes⟩ := h
  constructor
  · rw [allowsNull] at hnull
    cases hv : Entries.get? "nullable" ms with
    | none =>
      rw [hv] at hnull
      cases hnull
    | some v =>
      rw [hv, Option.bind_some] at hnull
      cases v with
      | bool b => exact congrArg (fun b => some (Value.bool b)) hnull
      | _ => cases hnull
  · cases hn : (Entries.get? "type" ms).bind typesOf? with
    | none =>
      rw [declaredTypes, hn] at htypes
      cases htypes
    | some names =>
      obtain ⟨v, hv, hnames⟩ := Option.bind_eq_some_iff.mp hn
      exact ⟨v, names, hv, hnames⟩

theorem typesOf?_withNull {v : Value} {names : List String} (h : typesOf? v = some names) :
    typesOf? (withNull v) = some (names ++ ["null"]) := by
  rw [withNull, h]
  exact Value.strings?_ofStrings _

/-- The members that are kept stay in order. -/
theorem filter_isKept_newer (hkeys : (ms.map Prod.fst).Nodup) :
    (newer ms).filter (fun m => isKept m.1 m.2) = ms.filter fun m => isKept m.1 m.2 := by
  have htype {v : Value} {names : List String} (hv : typesOf? v = some names) :
      isKept "type" v = false := by
    rw [isKept_plain (show Keyword.ofWord? "type" = some .type from Keyword.ofWord?_word .type) rfl,
      Keyword.fits, Node.withPlain?, hv]
    rfl
  refine filter_newer fun m hm => ?_
  obtain ⟨key, v⟩ := m
  cases hh : (holding ms key v).isNothing with
  | true =>
    have hnothing : holding ms key v = .nothing := by
      cases hb : holding ms key v <;> first | rfl | (rw [hb] at hh; cases hh)
    by_cases hstays : addsNull ms → key ≠ "nullable" ∧ key ≠ "type"
    · exact .inl (newerMember_of_nothing hnothing hstays)
    obtain ⟨hnull, hkey⟩ := Classical.not_imp.mp hstays
    obtain ⟨hnullable, u, names, hu, hnames⟩ := exists_of_addsNull hnull
    by_cases hn : key = "nullable"
    · subst hn
      rw [Entries.get?_of_mem hkeys hm] at hnullable
      cases hnullable
      refine .inr ⟨rfl, fun m' hm' => ?_⟩
      rw [newerMember, if_pos ⟨hnull, rfl⟩] at hm'
      cases hm'
    · obtain rfl : key = "type" := by
        by_contra ht
        exact hkey ⟨hn, ht⟩
      rw [Entries.get?_of_mem hkeys hm] at hu
      cases hu
      refine .inr ⟨htype hnames, fun m' hm' => ?_⟩
      rw [newerMember, if_neg fun hc => hn hc.2, if_pos ⟨hnull, rfl⟩, hnothing] at hm'
      cases hm'
      exact htype (typesOf?_withNull hnames)
  | false =>
    have hkept : isKept key v = false := by
      by_cases ha : key = "additionalItems"
      · exact isKept_eq_false (.inr (.inr ha))
      · rw [holding_of_ne ha] at hh
        exact isKept_of_subvalues hh
    refine .inr ⟨hkept, fun m' hm' => isKept_of_subvalues ?_⟩
    rw [subvalues_newer hm', Below.isNothing_each]
    exact hh

end

section

variable {ms : List (String × Value)} (hkeys : (ms.map Prod.fst).Nodup) (hu : Unambiguous ms)

include hkeys hu

/-- A keyword that holds no schema has its value, unless `null` is added to the types. -/
theorem get?_newer_of_nothing {word : String} (hword : olderWord ms word = word)
    (h : ∀ v, holding ms word v = .nothing)
    (hnull : addsNull ms → word ≠ "nullable" ∧ word ≠ "type") :
    Entries.get? word (newer ms) = Entries.get? word ms := by
  rw [get?_newer hkeys hu, hword]
  cases Entries.get? word ms with
  | none => rfl
  | some v =>
    rw [Option.bind_some, newerMember_of_nothing (h v) hnull, Option.filter_some,
      if_pos (decide_eq_true rfl), Option.map_some]

theorem get?_newer_plain {k : Keyword} (hp : k.isPlain) (hk : k ≠ .type) :
    Entries.get? k.word (newer ms) = Entries.get? k.word ms := by
  have hslot (s : Slot) : k.word ≠ s.word := by
    intro hw
    obtain rfl : k = .slot s := Keyword.word_injective hw
    cases hp
  refine get?_newer_of_nothing hkeys hu ?_ (fun v => ?_) fun _ => ⟨k.word_ne_nullable, fun h => ?_⟩
  · exact olderWord_of_ne (hslot (.map .defs)) (hslot (.list .prefixItems)) (hslot (.child .items))
  · rw [holding_of_ne k.word_ne_additionalItems, subvalues, Slot.ofWord?_of_isPlain hp]
  · exact hk (Keyword.word_injective (h : k.word = Keyword.type.word))

/-- The types are declared with `null`, and it is no longer allowed besides. -/
theorem get?_newer_of_addsNull (hnull : addsNull ms) :
    Entries.get? "type" (newer ms) = (Entries.get? "type" ms).map withNull ∧
      Entries.get? "nullable" (newer ms) = none := by
  constructor
  · rw [get?_newer hkeys hu, olderWord_of_ne (by simp) (by simp) (by simp)]
    cases Entries.get? "type" ms with
    | none => rfl
    | some v =>
      have hm : newerMember ms ("type", v) = some ("type", withNull v) := by
        rw [newerMember, if_neg (by simp), if_pos ⟨hnull, rfl⟩, holding_of_ne (by simp)]
        rfl
      rw [Option.bind_some, hm, Option.filter_some, if_pos (decide_eq_true rfl), Option.map_some,
        Option.map_some]
  · rw [get?_newer hkeys hu, olderWord_of_ne (by simp) (by simp) (by simp)]
    cases Entries.get? "nullable" ms with
    | none => rfl
    | some v => rw [Option.bind_some, newerMember, if_pos ⟨hnull, rfl⟩]; rfl

theorem get?_newer_of_not_addsNull (hnull : addsNull ms = false) :
    Entries.get? "type" (newer ms) = Entries.get? "type" ms ∧
      Entries.get? "nullable" (newer ms) = Entries.get? "nullable" ms := by
  have hnone (h : addsNull ms) (word : String) : word ≠ "nullable" ∧ word ≠ "type" := by
    rw [hnull] at h
    cases h
  constructor <;>
    refine get?_newer_of_nothing hkeys hu (olderWord_of_ne (by simp) (by simp) (by simp))
      (fun v => ?_) fun h => hnone h _ <;>
    rw [holding_of_ne (by simp)] <;> rfl

/-- The members declare the same types together. -/
theorem shownTypes_newer : shownTypes (newer ms) = shownTypes ms := by
  cases hnull : addsNull ms with
  | false =>
    obtain ⟨htype, hnullable⟩ := get?_newer_of_not_addsNull hkeys hu hnull
    rw [shownTypes, shownTypes, allowsNull, allowsNull, htype, hnullable]
  | true =>
    obtain ⟨htype, hnullable⟩ := get?_newer_of_addsNull hkeys hu hnull
    obtain ⟨-, v, names, hv, hnames⟩ := exists_of_addsNull hnull
    have hallows : allowsNull (newer ms) = false := by
      rw [allowsNull, hnullable]
      rfl
    have hdeclared : declaredTypes (Entries.get? "type" (newer ms)) =
        (declaredTypes (Entries.get? "type" ms)).insert "null" := by
      rw [htype, hv, Option.map_some, declaredTypes, declaredTypes, Option.bind_some,
        Option.bind_some, typesOf?_withNull hnames, hnames]
      simp [TypeSet.ofList, TypeSet.insertAll]
    rw [addsNull] at hnull
    simp only [shownTypes, hallows, hdeclared, hnull, Bool.false_and, Bool.false_eq_true, if_true,
      if_false]

/-- `nullable` is an annotation as before. -/
theorem nullableNote_newer : nullableNote (newer ms) = nullableNote ms := by
  cases hnull : addsNull ms with
  | false =>
    obtain ⟨htype, hnullable⟩ := get?_newer_of_not_addsNull hkeys hu hnull
    rw [nullableNote, nullableNote, allowsNull, allowsNull, htype, hnullable]
  | true =>
    obtain ⟨-, hnullable⟩ := get?_newer_of_addsNull hkeys hu hnull
    rw [addsNull, Bool.and_eq_true, Bool.not_eq_true'] at hnull
    rw [nullableNote, nullableNote, hnullable, hnull.2, Bool.and_false]
    rfl

/-- `additionalItems` is kept as before. -/
theorem additionalNote_newer : additionalNote (newer ms) = additionalNote ms := by
  rw [additionalNote, additionalNote, listsItems_newer, get?_newer hkeys hu,
    olderWord_of_ne (by simp) (by simp) (by simp)]
  cases Entries.get? "additionalItems" ms with
  | none => rfl
  | some v =>
    have hholding : holding ms "additionalItems" v = _ := holding_additionalItems v
    cases hc : listsItems ms && isSchema v with
    | true =>
      rw [hc, if_pos rfl] at hholding
      have hm : newerMember ms ("additionalItems", v) = some ("items", modern v) := by
        rw [newerMember, if_neg (by simp), if_neg (by simp), hholding]
        rfl
      have hne : decide ("items" = "additionalItems") = false := by simp
      simp only [Option.bind_some, hm, Option.filter_some, hne, hc, Bool.false_eq_true, if_false,
        if_true, Option.map_none]
    | false =>
      rw [hc, if_neg Bool.false_ne_true] at hholding
      have hm := newerMember_of_nothing hholding fun _ => by simp
      simp only [Option.bind_some, hm, Option.filter_some, decide_true, if_true, Option.map_some,
        hc, Bool.false_and, Bool.false_eq_true, if_false]

end

/-- The newer forms are regular as well. -/
theorem Regular.modern {v : Value} (h : Regular v) : Regular (modern v) := by
  induction h with
  | @other v hv =>
    cases v with
    | object => cases hv
    | _ => exact .other rfl
  | @object ms hkeys hu hheld _ ih =>
    rw [modern_object]
    refine .object (nodup_newer hkeys hu) (unambiguous_newer hkeys hu)
      (fun s => nodup_keys_held_newer hkeys hu (hheld s)) fun u' hu' => ?_
    obtain ⟨u, hu, rfl⟩ := holds_newer_iff.mp hu'
    exact ih u hu

end OpenApi.Schema
