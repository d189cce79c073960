import OpenApi.OrderedMap

/-!
# Insertion into ordered maps

What a look-up finds after entries were inserted, and which entries are there then:

* `OrderedMap.get?_insert`, `OrderedMap.get?_insertAll`: the latest entry inserted under the key,
  else what was there;
* `OrderedMap.get?_eq_some_iff`: the entries of a map are what its look-ups find;
* `OrderedMap.entries_insertAll`: entries under distinct keys change values in place and follow
  otherwise.
-/

namespace OpenApi

variable {α : Type u}

/-! ## Lists of entries -/

namespace Entries

theorem get?_insert (key k : String) (v : α) (entries : List (String × α)) :
    get? k (insert key v entries) = if key = k then some v else get? k entries := by
  induction entries with
  | nil => simp only [insert, get?]
  | cons e rest ih =>
    obtain ⟨k', v'⟩ := e
    by_cases h : k' = key
    · subst h
      simp only [insert, ↓reduceIte, get?]
      split <;> rfl
    · simp only [insert, h, ↓reduceIte, get?, ih]
      by_cases hk : k' = k
      · subst hk
        simp only [↓reduceIte, show ¬ key = k' from fun e => h e.symm]
      · simp only [hk, ↓reduceIte]

theorem get?_append (key : String) (xs ys : List (String × α)) :
    get? key (xs ++ ys) = (get? key xs).or (get? key ys) := by
  induction xs with
  | nil => rfl
  | cons e rest ih =>
    obtain ⟨k, v⟩ := e
    simp only [List.cons_append, get?]
    split
    · rfl
    · exact ih

theorem get?_eq_none_iff {key : String} {entries : List (String × α)} :
    get? key entries = none ↔ key ∉ entries.map Prod.fst := by
  induction entries with
  | nil => simp [get?]
  | cons e rest ih =>
    obtain ⟨k, v⟩ := e
    rw [List.map_cons, List.mem_cons, not_or, ← ih, get?]
    split
    next h => subst h; simp
    next h => exact ⟨fun hr => ⟨fun e => h e.symm, hr⟩, And.right⟩

theorem get?_eq_none {key : String} {entries : List (String × α)}
    (h : ∀ e ∈ entries, e.1 ≠ key) : get? key entries = none := by
  rw [get?_eq_none_iff, List.mem_map]
  rintro ⟨e, he, hk⟩
  exact h e he hk

theorem mem_of_get? {key : String} {v : α} {entries : List (String × α)}
    (h : get? key entries = some v) : (key, v) ∈ entries := by
  induction entries with
  | nil => cases h
  | cons e rest ih =>
    obtain ⟨k, v'⟩ := e
    simp only [get?] at h
    split at h
    next hk => cases h; subst hk; exact List.mem_cons_self
    next => exact List.mem_cons_of_mem _ (ih h)

theorem get?_of_mem {key : String} {v : α} {entries : List (String × α)}
    (hn : (entries.map Prod.fst).Nodup) (h : (key, v) ∈ entries) :
    get? key entries = some v := by
  induction entries with
  | nil => cases h
  | cons e rest ih =>
    obtain ⟨k, v'⟩ := e
    rw [List.map_cons, List.nodup_cons] at hn
    rcases List.mem_cons.mp h with h | h
    · cases h
      simp only [get?, ↓reduceIte]
    · have hk : k ≠ key := fun e => hn.1 (List.mem_map.mpr ⟨_, h, e.symm⟩)
      simp only [get?, hk, ↓reduceIte, ih hn.2 h]

theorem get?_reverse {entries : List (String × α)} (key : String)
    (h : (entries.map Prod.fst).Nodup) : get? key entries.reverse = get? key entries := by
  have hr : (entries.reverse.map Prod.fst).Nodup := by
    rw [List.map_reverse]
    exact List.pairwise_reverse.mpr (h.imp Ne.symm)
  cases hget : get? key entries with
  | none =>
    rw [get?_eq_none_iff] at hget ⊢
    simpa using hget
  | some v => exact get?_of_mem hr (List.mem_reverse.mpr (mem_of_get? hget))

/-- Under distinct keys a filter lets a look-up find what it found, or nothing. -/
theorem get?_filter {entries : List (String × α)} (h : (entries.map Prod.fst).Nodup) (key : String)
    (p : String × α → Bool) :
    get? key (entries.filter p) = (get? key entries).filter fun v => p (key, v) := by
  induction entries with
  | nil => rfl
  | cons e rest ih =>
    obtain ⟨k, v⟩ := e
    rw [List.map_cons, List.nodup_cons] at h
    have ih := ih h.2
    rw [List.filter_cons]
    by_cases hk : k = key
    · subst hk
      have hrest : get? k rest = none := get?_eq_none_iff.mpr h.1
      simp only [get?, ↓reduceIte, Option.filter_some]
      split
      · simp only [get?, ↓reduceIte]
      · rw [ih, hrest]
        rfl
    · simp only [get?, hk, ↓reduceIte]
      split
      · simp only [get?, hk, ↓reduceIte, ih]
      · exact ih

/-- Under distinct keys there is one entry with a key at most. -/
theorem filter_key {entries : List (String × α)} (h : (entries.map Prod.fst).Nodup)
    (key : String) :
    entries.filter (·.1 == key) = ((get? key entries).map fun v => (key, v)).toList := by
  induction entries with
  | nil => rfl
  | cons e rest ih =>
    obtain ⟨k, v⟩ := e
    rw [List.map_cons, List.nodup_cons] at h
    rw [List.filter_cons, get?, ih h.2]
    by_cases hk : k = key
    · subst hk
      rw [if_pos (beq_self_eq_true k), if_pos rfl, get?_eq_none_iff.mpr h.1]
      rfl
    · rw [if_neg (by simpa using hk), if_neg hk]

/-- Entries that are renamed so that their old keys can be told from the new ones, and changed or
left out meanwhile: the entry under a new key is made of that under the old one. -/
theorem get?_filterMap {β : Type v} {entries : List (String × α)}
    {f : String × α → Option (String × β)} {source : String → String}
    (hkeys : (entries.map Prod.fst).Nodup)
    (hsource : ∀ e ∈ entries, ∀ e', f e = some e' → source e'.1 = e.1) (key : String) :
    get? key (entries.filterMap f) = (get? (source key) entries).bind fun v =>
      ((f (source key, v)).filter (·.1 = key)).map Prod.snd := by
  induction entries with
  | nil => rfl
  | cons e rest ih =>
    obtain ⟨k, v⟩ := e
    rw [List.map_cons, List.nodup_cons] at hkeys
    rw [List.forall_mem_cons] at hsource
    have ih := ih hkeys.2 hsource.2
    have hrest : k = source key → get? (source key) rest = none := by
      rintro rfl
      exact get?_eq_none_iff.mpr hkeys.1
    cases hf : f (k, v) with
    | none =>
      rw [List.filterMap_cons_none hf, ih, get?]
      split
      next hk =>
        subst hk
        rw [hrest rfl, Option.bind_some, hf]
        rfl
      next => rfl
    | some e' =>
      obtain ⟨k', v'⟩ := e'
      have hk' : source k' = k := hsource.1 _ hf
      rw [List.filterMap_cons_some hf, get?, get?, ih]
      by_cases hkey : k' = key
      · subst hkey
        rw [if_pos rfl, if_pos hk'.symm, hk', Option.bind_some, hf, Option.filter_some,
          if_pos (decide_eq_true rfl), Option.map_some]
      · rw [if_neg hkey]
        split
        next hk =>
          subst hk
          rw [hrest rfl, Option.bind_some, hf, Option.filter_some, if_neg (by simpa using hkey)]
          rfl
        next => rfl

theorem nodup_filterMap {β : Type v} {entries : List (String × α)}
    {f : String × α → Option (String × β)} {source : String → String}
    (hkeys : (entries.map Prod.fst).Nodup)
    (hsource : ∀ e ∈ entries, ∀ e', f e = some e' → source e'.1 = e.1) :
    ((entries.filterMap f).map Prod.fst).Nodup := by
  induction entries with
  | nil => exact .nil
  | cons e rest ih =>
    rw [List.map_cons, List.nodup_cons] at hkeys
    rw [List.forall_mem_cons] at hsource
    have ih := ih hkeys.2 hsource.2
    cases hf : f e with
    | none => rwa [List.filterMap_cons_none hf]
    | some e' =>
      rw [List.filterMap_cons_some hf, List.map_cons, List.nodup_cons]
      refine ⟨fun hm => ?_, ih⟩
      obtain ⟨e₂', he₂', hkey⟩ := List.mem_map.mp hm
      obtain ⟨e₂, he₂, hf₂⟩ := List.mem_filterMap.mp he₂'
      have hsame : e.1 = e₂.1 := by
        rw [← hsource.1 _ hf, ← hsource.2 e₂ he₂ _ hf₂, hkey]
      exact hkeys.1 (List.mem_map.mpr ⟨e₂, he₂, hsame.symm⟩)

/-- A key that stands before one value only is found with that value. -/
theorem get?_map_const {key : String} {keys : List String} (v : α) (h : key ∈ keys) :
    get? key (keys.map (·, v)) = some v := by
  cases hv : get? key (keys.map (·, v)) with
  | none => exact absurd (by simpa using h) (get?_eq_none_iff.mp hv)
  | some v' =>
    obtain ⟨_, -, he⟩ := List.mem_map.mp (mem_of_get? hv)
    rw [(Prod.mk.inj he).2]

theorem insert_of_notMem {key : String} {value : α} {entries : List (String × α)}
    (h : key ∉ entries.map Prod.fst) : insert key value entries = entries ++ [(key, value)] := by
  induction entries with
  | nil => rfl
  | cons e rest ih =>
    rw [List.map_cons, List.mem_cons, not_or] at h
    simp only [insert, Ne.symm h.1, ↓reduceIte, ih h.2, List.cons_append]

theorem insert_of_mem {key : String} {value : α} {entries : List (String × α)}
    (hn : (entries.map Prod.fst).Nodup) (h : key ∈ entries.map Prod.fst) :
    insert key value entries = entries.map fun e => (e.1, if key = e.1 then value else e.2) := by
  induction entries with
  | nil => cases h
  | cons e rest ih =>
    obtain ⟨k, v⟩ := e
    rw [List.map_cons, List.nodup_cons] at hn
    by_cases hk : key = k
    · subst hk
      have hrest : ∀ e ∈ rest, (e.1, if key = e.1 then value else e.2) = e := by
        intro e he
        rw [if_neg]
        exact fun hk => hn.1 (List.mem_map.mpr ⟨e, he, hk.symm⟩)
      rw [List.map_cons, List.map_congr_left hrest]
      simp only [insert, ↓reduceIte, List.map_id']
    · rw [List.map_cons, List.mem_cons] at h
      simp only [insert, Ne.symm hk, hk, ↓reduceIte, List.map_cons, ih hn.2 (h.resolve_left hk)]

theorem mem_values_insert {key : String} {value v : α} {entries : List (String × α)}
    (h : v ∈ (insert key value entries).map Prod.snd) : v = value ∨ v ∈ entries.map Prod.snd := by
  induction entries with
  | nil => simpa [insert] using h
  | cons e rest ih =>
    simp only [insert] at h
    split at h
    · simp only [List.map_cons, List.mem_cons] at h ⊢
      exact h.imp_right .inr
    · simp only [List.map_cons, List.mem_cons] at h ⊢
      rcases h with h | h
      · exact .inr (.inl h)
      · exact (ih h).imp_right .inr

theorem nodup_values_insert {key : String} {value : α} {entries : List (String × α)}
    (h : (entries.map Prod.snd).Nodup) (hv : value ∉ entries.map Prod.snd) :
    ((insert key value entries).map Prod.snd).Nodup := by
  induction entries with
  | nil => simp [insert]
  | cons e rest ih =>
    rw [List.map_cons, List.nodup_cons] at h
    rw [List.map_cons, List.mem_cons, not_or] at hv
    simp only [insert]
    split
    · rw [List.map_cons, List.nodup_cons]
      exact ⟨hv.2, h.2⟩
    · rw [List.map_cons, List.nodup_cons]
      exact ⟨fun hm => (mem_values_insert hm).elim (fun he => hv.1 he.symm) h.1, ih h.2 hv.2⟩

end Entries

/-! ## Maps -/

namespace OrderedMap

@[simp] theorem entries_empty : (empty : OrderedMap α).entries = [] := rfl

@[simp] theorem get?_empty (k : String) : (empty : OrderedMap α).get? k = none := rfl

theorem get?_insert (m : OrderedMap α) (key k : String) (v : α) :
    (m.insert key v).get? k = if key = k then some v else m.get? k :=
  Entries.get?_insert key k v m.entries

/-- The latest of the entries under a key counts. -/
theorem get?_insertAll (m : OrderedMap α) (entries : List (String × α)) (k : String) :
    (m.insertAll entries).get? k = (Entries.get? k entries.reverse).or (m.get? k) := by
  induction entries generalizing m with
  | nil => rfl
  | cons e rest ih =>
    show ((m.insert e.1 e.2).insertAll rest).get? k = _
    rw [ih, get?_insert, List.reverse_cons, Entries.get?_append, Option.or_assoc]
    refine congrArg (Option.or _) ?_
    simp only [Entries.get?]
    split <;> rfl

theorem get?_ofList (entries : List (String × α)) (k : String) :
    (ofList entries).get? k = Entries.get? k entries.reverse := by
  rw [ofList, get?_insertAll, get?_empty, Option.or_none]

theorem get?_insertAll_of_notMem {m : OrderedMap α} {entries : List (String × α)} {k : String}
    (h : k ∉ entries.map Prod.fst) : (m.insertAll entries).get? k = m.get? k := by
  rw [get?_insertAll, Entries.get?_eq_none_iff.mpr (by simpa using h), Option.none_or]

theorem get?_eq_some_iff {m : OrderedMap α} {k : String} {v : α} :
    m.get? k = some v ↔ (k, v) ∈ m.entries :=
  ⟨Entries.mem_of_get?, Entries.get?_of_mem m.nodup⟩

theorem mem_values_of_get? {m : OrderedMap α} {k : String} {v : α} (h : m.get? k = some v) :
    v ∈ m.values :=
  List.mem_map_of_mem (get?_eq_some_iff.mp h)

theorem mem_values_insertAll {m : OrderedMap α} {entries : List (String × α)} {v : α}
    (h : v ∈ (m.insertAll entries).values) : v ∈ m.values ∨ v ∈ entries.map Prod.snd := by
  induction entries generalizing m with
  | nil => exact .inl h
  | cons e rest ih =>
    rw [List.map_cons, List.mem_cons]
    rcases ih (m := m.insert e.1 e.2) h with h | h
    · exact (Entries.mem_values_insert h).elim (.inr ∘ .inl) .inl
    · exact .inr (.inr h)

theorem nodup_values_insertAll {m : OrderedMap α} {entries : List (String × α)}
    (hm : m.values.Nodup) (he : (entries.map Prod.snd).Nodup)
    (hd : ∀ v ∈ entries.map Prod.snd, v ∉ m.values) : (m.insertAll entries).values.Nodup := by
  induction entries generalizing m with
  | nil => exact hm
  | cons e rest ih =>
    rw [List.map_cons, List.nodup_cons] at he
    rw [List.map_cons, List.forall_mem_cons] at hd
    refine ih (m := m.insert e.1 e.2) (Entries.nodup_values_insert hm hd.1) he.2 fun v hv hmem => ?_
    rcases Entries.mem_values_insert hmem with rfl | h
    · exact he.1 hv
    · exact hd.2 v hv h

/-- Inserting entries under distinct keys: values under present keys are replaced, the other
entries follow. -/
theorem entries_insertAll {m : OrderedMap α} {entries : List (String × α)}
    (h : (entries.map Prod.fst).Nodup) : (m.insertAll entries).entries =
      m.entries.map (fun e => (e.1, (Entries.get? e.1 entries).getD e.2)) ++
        entries.filter fun e => e.1 ∉ m.keys := by
  induction entries generalizing m with
  | nil => simp [insertAll, Entries.get?]
  | cons e rest ih =>
    obtain ⟨key, value⟩ := e
    rw [List.map_cons, List.nodup_cons] at h
    show ((m.insert key value).insertAll rest).entries = _
    rw [ih h.2]
    have hrest : Entries.get? key rest = none := Entries.get?_eq_none_iff.mpr h.1
    have hkeys : ∀ e : String × α, e.1 ∈ (m.insert key value).keys ↔ e.1 = key ∨ e.1 ∈ m.keys :=
      fun e => Entries.mem_keys_insert
    have hlater : rest.filter (fun e => e.1 ∉ (m.insert key value).keys) =
        rest.filter fun e => e.1 ∉ m.keys := by
      refine List.filter_congr fun e he => ?_
      have hne : e.1 ≠ key := fun hk => h.1 (List.mem_map.mpr ⟨e, he, hk⟩)
      simp only [hkeys, hne, false_or]
    rw [hlater, List.filter_cons]
    by_cases hk : key ∈ m.keys
    · have he : (m.insert key value).entries = _ := Entries.insert_of_mem m.nodup hk
      rw [he, List.map_map, if_neg (by simpa using hk)]
      refine congrArg (· ++ _) (List.map_congr_left fun e _ => ?_)
      by_cases hek : key = e.1
      · simp [← hek, Entries.get?, hrest]
      · simp [hek, Entries.get?]
    · have he : (m.insert key value).entries = m.entries ++ [(key, value)] :=
        Entries.insert_of_notMem hk
      rw [he, List.map_append, if_pos (by simpa using hk), List.append_assoc]
      have hearlier : m.entries.map (fun e => (e.1, (Entries.get? e.1 rest).getD e.2)) =
          m.entries.map fun e => (e.1, (Entries.get? e.1 ((key, value) :: rest)).getD e.2) := by
        refine List.map_congr_left fun e he => ?_
        have hne : key ≠ e.1 := fun hke => hk (List.mem_map.mpr ⟨e, he, hke.symm⟩)
        simp only [Entries.get?, hne, ↓reduceIte]
      rw [hearlier]
      simp [hrest]

theorem map_entries {β : Type u} (m : OrderedMap α) (f : α → β) :
    m.entries.map (fun e => (e.1, f e.2)) = m.keys.zip (m.values.map f) := by
  rw [keys, values, List.map_map, List.zip_map']
  rfl

theorem entries_ofList {entries : List (String × α)} (h : (entries.map Prod.fst).Nodup) :
    (ofList entries).entries = entries := by
  rw [ofList, entries_insertAll h]
  simp [keys]

/-- A map made of distinct keys and as many values has these keys and these values. -/
theorem keys_values_ofList_zip {keys : List String} {values : List α} (hkeys : keys.Nodup)
    (hlength : keys.length = values.length) :
    (ofList (keys.zip values)).keys = keys ∧ (ofList (keys.zip values)).values = values := by
  have hfst : (keys.zip values).map Prod.fst = keys := List.map_fst_zip (Nat.le_of_eq hlength)
  have hentries : (ofList (keys.zip values)).entries = keys.zip values :=
    entries_ofList (by rwa [hfst])
  rw [OrderedMap.keys, OrderedMap.values, hentries]
  exact ⟨hfst, List.map_snd_zip (Nat.le_of_eq hlength.symm)⟩

end OrderedMap

end OpenApi
