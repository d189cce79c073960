import OpenApi.Proofs.Schema.Plain
import OpenApi.Proofs.Schema.Stored

/-!
# What a draft holds

A member of a schema changes one part of its draft (`Draft.Step`). With distinct keys each part is
therefore what one member, or the members of one kind, make of it.

* `Reads.plainValue?`, `Reads.types`: the keywords without subschemas;
* `Reads.child`, `Reads.list`, `Reads.map`: the subschemas;
* `Reads.extensions`, `Reads.annotations`, `Reads.custom`: the members that are kept.
-/

namespace OpenApi.Schema

open Json

/-- Whether a member is kept among the custom keywords, `additionalItems` left aside. -/
def isKept (key : String) (value : Value) : Bool :=
  match Slot.ofWord? key with
  | some s => (s.below value).isNothing
  | none =>
    if Text.startsWith "x-" key || annotationWords.contains key then false
    else if key = "nullable" then value.bool?.isNone
    else if key = "additionalItems" then false
    else
      match Keyword.ofWord? key with
      | some k => !k.fits value
      | none => true

theorem Slot.ofWord?_of_isReserved {key : String} (h : isReserved key) : ofWord? key = none := by
  cases hs : ofWord? key with
  | none => rfl
  | some s => rw [not_isReserved_of_ofWord? hs] at h; cases h

theorem isKept_eq_false {key : String} {value : Value} (h : Text.startsWith "x-" key ∨
    annotationWords.contains key ∨ key = "additionalItems") : isKept key value = false := by
  have hr : isReserved key := by
    simp only [isReserved, Bool.or_eq_true, beq_iff_eq]
    tauto
  rw [isKept, Slot.ofWord?_of_isReserved hr]
  rcases h with h | h | h
  · simp only [h, Bool.true_or, ↓reduceIte]
  · simp only [h, Bool.or_true, ↓reduceIte]
  · subst h
    rfl

theorem isKept_slot (s : Slot) (value : Value) :
    isKept s.word value = (s.below value).isNothing := by
  rw [isKept, Slot.ofWord?_word]

theorem isKept_nullable (value : Value) : isKept "nullable" value = value.bool?.isNone := rfl

/-- The word of a keyword without subschemas names no slot. -/
theorem Slot.ofWord?_of_isPlain {k : Keyword} (hp : k.isPlain) : ofWord? k.word = none := by
  cases hs : ofWord? k.word with
  | none => rfl
  | some s =>
    have hk := Keyword.ofWord?_of_slot hs k.word_ne_definitions
    rw [Keyword.ofWord?_word] at hk
    cases hk
    cases hp

theorem isKept_plain {key : String} {value : Value} {k : Keyword}
    (hk : Keyword.ofWord? key = some k) (hp : k.isPlain) : isKept key value = !k.fits value := by
  have hr : isReserved key = false := Keyword.word_of_ofWord? hk ▸ k.not_isReserved
  have hs : Slot.ofWord? key = none := Keyword.word_of_ofWord? hk ▸ Slot.ofWord?_of_isPlain hp
  obtain ⟨hx, ha, hn, hi⟩ := isReserved_eq_false_iff.mp hr
  simp only [isKept, hs, hx, ha, Bool.or_false, Bool.false_eq_true, hn, hi, hk, ↓reduceIte]

/-- A slot for one subschema takes a schema; that of items takes an array as well. -/
theorem Slot.below_child (k : ChildKeyword) (value : Value) :
    isSchema value ∧ (child k).below value = .one value ∨
      (∃ items, k = .items ∧ value = .array items ∧ (child k).below value = .list items) ∨
      isSchema value = false ∧ (k = .items → value.items? = none) ∧
        (child k).below value = .nothing := by
  cases value with
  | bool | object =>
    refine .inl ⟨rfl, ?_⟩
    cases k <;> rfl
  | array items =>
    by_cases hk : k = .items
    · subst hk
      exact .inr (.inl ⟨items, rfl, rfl, rfl⟩)
    · refine .inr (.inr ⟨rfl, fun h => absurd h hk, ?_⟩)
      cases k <;> first | rfl | exact absurd rfl hk
  | _ =>
    refine .inr (.inr ⟨rfl, fun _ => rfl, ?_⟩)
    cases k <;> rfl

/-! ## One member -/

namespace Draft

variable {d d' : Draft} {key : String} {value : Value} {ids : Below NodeId}

/-- The ways in which a member changes a draft. -/
inductive Step (d : Draft) (key : String) (value : Value) (ids : Below NodeId) : Draft → Prop
  | fill (s : Slot) : Slot.ofWord? key = some s → Step d key value ids (d.fill s key value ids)
  | extension : Text.startsWith "x-" key → Step d key value ids
      (d.modify fun n => { n with extensions := n.extensions.insert key value })
  | annotated : annotationWords.contains key → Step d key value ids
      (d.modify fun n => { n with annotations := n.annotations.insert key value })
  | nullable : key = "nullable" → Step d key value ids (d.readNullable value)
  | additionalItems : key = "additionalItems" → Step d key value ids d
  | plain (k : Keyword) (n : Node) : Keyword.ofWord? key = some k → k.isPlain →
      d.node.withPlain? k value = some n → Step d key value ids { d with node := n }
  | keep : isReserved key = false → isKept key value → Step d key value ids (d.keep key value)

theorem step (d : Draft) (key : String) (value : Value) (ids : Below NodeId) :
    Step d key value ids (d.read key value ids) := by
  rw [read]
  split
  · rename_i s hs
    exact .fill s hs
  rename_i hs
  rw [readOther]
  split
  · rename_i hx
    exact .extension hx
  rename_i hx
  split
  · rename_i ha
    exact .annotated ha
  rename_i ha
  have ha : key ∉ annotationWords := by simpa using ha
  split
  · rename_i hn
    exact .nullable hn
  rename_i hn
  split
  · rename_i hi
    exact .additionalItems hi
  rename_i hi
  have hr : isReserved key = false := by simp [isReserved, hx, ha, hn, hi]
  cases hk : Keyword.ofWord? key with
  | none => exact .keep hr (by simp [isKept, hs, hx, ha, hn, hi, hk])
  | some k =>
    simp only [readPlain]
    have hplain : k.isPlain := by
      cases k with
      | slot s => rw [Slot.ofWord?_of_keyword hk] at hs; cases hs
      | _ => rfl
    cases hw : d.node.withPlain? k value with
    | some n => exact .plain k n hk hplain hw
    | none =>
      have hfits : k.fits value = false := by rw [← d.node.isSome_withPlain? k value, hw]; rfl
      exact .keep hr (by simp [isKept, hs, hx, ha, hn, hi, hk, hfits])

theorem fill_one (d : Draft) (k : ChildKeyword) (key : String) (value : Value) (id : NodeId) :
    d.fill (.child k) key value (.one id) = d.setChild k key value (some id) := by
  cases k <;> rfl

theorem fill_nothing (d : Draft) (s : Slot) (key : String) (value : Value) :
    d.fill s key value .nothing = d.keep key value := by
  rcases s with k | k | k
  · cases k <;> rfl
  · rfl
  · rfl

theorem bare_fill (d : Draft) (s : Slot) (key : String) (value : Value) (ids : Below NodeId) :
    (d.fill s key value ids).node.bare = d.node.bare := by
  unfold fill
  split <;> rfl

theorem nullable_fill (d : Draft) (s : Slot) (key : String) (value : Value) (ids : Below NodeId) :
    (d.fill s key value ids).nullable = d.nullable := by
  unfold fill
  split <;> rfl

/-- A keyword with subschemas is kept if nothing can stand in its slot. -/
theorem custom_fill (d : Draft) (s : Slot) (key : String) (value : Value) {ids : List NodeId}
    (h : ids.length = (s.below value).items.length) :
    (d.fill s key value ((s.below value).refill ids)).node.custom =
      if (s.below value).isNothing then d.node.custom.insert key value else d.node.custom := by
  rcases s with k | k | k
  · rcases Slot.below_child k value with ⟨-, hb⟩ | ⟨items, rfl, -, hb⟩ | ⟨-, -, hb⟩
    · rw [hb] at h ⊢
      obtain ⟨id, rfl⟩ := List.length_eq_one_iff.mp h
      cases k <;> rfl
    · rw [hb]
      rfl
    · rw [hb]
      cases k <;> rfl
  · cases value <;> rfl
  · cases value <;> rfl

theorem child_fill_of_ne {s : Slot} {k : ChildKeyword} (h : s ≠ .child k) :
    (d.fill s key value ids).node.child k = d.node.child k := by
  unfold fill
  split <;> try rfl
  exact update_of_ne _ _ fun hk => h (by rw [hk])

/-- An array of items is put among the prefix items. -/
theorem list_fill_of_ne {s : Slot} {k : ListKeyword} {items : List NodeId} (h : s ≠ .list k)
    (hi : s = .child .items → k = .prefixItems → value.items? = none) :
    (d.fill s key value ((s.below value).refill items)).node.list k = d.node.list k := by
  unfold fill
  split <;> try rfl
  · rename_i ids hids
    refine update_of_ne _ _ fun hk => ?_
    rcases Slot.below_child .items value with ⟨-, hb⟩ | ⟨vs, -, rfl, -⟩ | ⟨-, -, hb⟩
    · rw [hb] at hids
      obtain - | ⟨id, - | _⟩ := items <;> cases hids
    · cases hi rfl hk
    · rw [hb] at hids
      cases hids
  · exact update_of_ne _ _ fun hk => h (by rw [hk])

theorem map_fill_of_ne {s : Slot} {k : MapKeyword} (h : s ≠ .map k) :
    (d.fill s key value ids).node.map k = d.node.map k := by
  unfold fill
  split <;> try rfl
  exact update_of_ne _ _ fun hk => h (by rw [hk])

namespace Step

theorem boolean_eq (h : Step d key value ids d') : d'.node.boolean = d.node.boolean := by
  cases h with
  | fill s => exact (congrArg Node.boolean (d.bare_fill s key value ids) :)
  | nullable => cases value <;> rfl
  | plain k n _ _ hn => exact (Node.others_withPlain? hn).1
  | _ => rfl

theorem plainValue?_eq {k : Keyword} (h : Step d key value ids d') (hk : key ≠ k.word) :
    d'.node.plainValue? k = d.node.plainValue? k := by
  cases h with
  | fill s => rw [← Node.plainValue?_bare, bare_fill, Node.plainValue?_bare]
  | nullable => cases value <;> cases k <;> rfl
  | plain k' n hk' _ hn =>
    exact Node.plainValue?_withPlain?_of_ne hn fun he =>
      hk (he ▸ (Keyword.word_of_ofWord? hk').symm)
  | _ => cases k <;> rfl

theorem types_eq (h : Step d key value ids d') (hk : key ≠ "type") :
    d'.node.types = d.node.types := by
  cases h with
  | fill s => exact (congrArg Node.types (d.bare_fill s key value ids) :)
  | nullable => cases value <;> rfl
  | plain k n hk' _ hn =>
    exact (Node.types_withPlain?_of_ne hn fun he =>
      hk (Keyword.word_of_ofWord? (he ▸ hk')).symm).1
  | _ => rfl

theorem typesInferred_eq (h : Step d key value ids d') :
    d'.node.typesInferred = d.node.typesInferred := by
  cases h with
  | fill s => exact (congrArg Node.typesInferred (d.bare_fill s key value ids) :)
  | nullable => cases value <;> rfl
  | plain k n _ _ hn => exact Node.typesInferred_withPlain? hn
  | _ => rfl

theorem nullable_eq (h : Step d key value ids d') (hk : key ≠ "nullable") :
    d'.nullable = d.nullable := by
  cases h with
  | fill s => exact d.nullable_fill s key value ids
  | nullable hk' => exact absurd hk' hk
  | _ => rfl

theorem itemsWereList_eq (h : Step d key value ids d') (hk : key ≠ "items") :
    d'.itemsWereList = d.itemsWereList := by
  cases h with
  | fill s hs =>
    unfold Draft.fill
    split <;> try rfl
    exact absurd (Slot.word_of_ofWord? hs (by simp)).symm hk
  | nullable => cases value <;> rfl
  | _ => rfl

theorem child_eq {k : ChildKeyword} (h : Step d key value ids d') (hk : key ≠ k.word) :
    d'.node.child k = d.node.child k := by
  cases h with
  | fill s hs =>
    refine child_fill_of_ne fun he => ?_
    subst he
    exact hk (Slot.word_of_ofWord? hs (by simp)).symm
  | nullable => cases value <;> rfl
  | plain k n _ _ hn => exact congrFun (Node.others_withPlain? hn).2.1 _
  | _ => rfl

theorem list_eq {k : ListKeyword} {items : List NodeId}
    (h : Step d key value ((subvalues key value).refill items) d') (hk : key ≠ k.word)
    (hi : key = "items" → k = .prefixItems → value.items? = none) :
    d'.node.list k = d.node.list k := by
  generalize hids : (subvalues key value).refill items = ids at h
  cases h with
  | fill s hs =>
    simp only [subvalues, hs] at hids
    subst hids
    refine list_fill_of_ne (fun he => ?_) fun he hp => hi ?_ hp
    · subst he
      exact hk (Slot.word_of_ofWord? hs (by simp)).symm
    · subst he
      exact (Slot.word_of_ofWord? hs (by simp)).symm
  | nullable => cases value <;> rfl
  | plain k n _ _ hn => exact congrFun (Node.others_withPlain? hn).2.2.1 _
  | _ => rfl

theorem map_eq {k : MapKeyword} {items : List NodeId}
    (h : Step d key value ((subvalues key value).refill items) d') (hk : key ≠ k.word)
    (hd : key = "definitions" → k = .defs → value.members? = none) :
    d'.node.map k = d.node.map k := by
  generalize hids : (subvalues key value).refill items = ids at h
  cases h with
  | fill s hs =>
    by_cases he : s = .map k
    · subst he
      obtain ⟨hw, he⟩ := (Slot.ofWord?_eq_some_iff.mp hs).resolve_left fun hs => hk hs.symm
      have hv := hd hw (Slot.map.inj he)
      simp only [subvalues, hs] at hids
      subst hids
      cases value <;> first | rfl | cases hv
    · exact map_fill_of_ne he
  | nullable => cases value <;> rfl
  | plain k n _ _ hn => exact congrFun (Node.others_withPlain? hn).2.2.2.1 _
  | _ => rfl

theorem extensions_eq (h : Step d key value ids d') : d'.node.extensions =
    if Text.startsWith "x-" key then d.node.extensions.insert key value else d.node.extensions := by
  have hx : isReserved key = false → Text.startsWith "x-" key = false :=
    fun h => (isReserved_eq_false_iff.mp h).1
  have hw : ∀ word ∈ "nullable" :: "additionalItems" :: annotationWords,
      Text.startsWith "x-" word = false := by decide +kernel
  cases h with
  | fill s hs =>
    rw [hx (Slot.not_isReserved_of_ofWord? hs), if_neg Bool.false_ne_true]
    exact (congrArg Node.extensions (d.bare_fill s key value ids) :)
  | extension h =>
    rw [if_pos h]
    rfl
  | annotated h =>
    have : key ∈ annotationWords := by simpa using h
    rw [hw key (by simp [this]), if_neg Bool.false_ne_true]
    rfl
  | nullable h =>
    rw [hw key (by simp [h]), if_neg Bool.false_ne_true]
    cases value <;> rfl
  | additionalItems h => rw [hw key (by simp [h]), if_neg Bool.false_ne_true]
  | plain k n hk _ hn =>
    rw [hx (Keyword.word_of_ofWord? hk ▸ k.not_isReserved), if_neg Bool.false_ne_true]
    exact (Node.others_withPlain? hn).2.2.2.2.2.1
  | keep h =>
    rw [hx h, if_neg Bool.false_ne_true]
    rfl

theorem annotations_eq (h : Step d key value ids d') : d'.node.annotations =
    if annotationWords.contains key then d.node.annotations.insert key value
    else d.node.annotations := by
  have ha : isReserved key = false → annotationWords.contains key = false :=
    fun h => (isReserved_eq_false_iff.mp h).2.1
  have hw : ∀ word ∈ annotationWords, Text.startsWith "x-" word = false := by decide +kernel
  cases h with
  | fill s hs =>
    rw [ha (Slot.not_isReserved_of_ofWord? hs), if_neg Bool.false_ne_true]
    exact (congrArg Node.annotations (d.bare_fill s key value ids) :)
  | extension h =>
    rw [if_neg]
    · rfl
    · intro hc
      rw [hw key (by simpa using hc)] at h
      cases h
  | annotated h =>
    rw [if_pos h]
    rfl
  | nullable h =>
    rw [h, if_neg (by decide)]
    cases value <;> rfl
  | additionalItems h => rw [h, if_neg (by decide)]
  | plain k n hk _ hn =>
    rw [ha (Keyword.word_of_ofWord? hk ▸ k.not_isReserved), if_neg Bool.false_ne_true]
    exact (Node.others_withPlain? hn).2.2.2.2.1
  | keep h =>
    rw [ha h, if_neg Bool.false_ne_true]
    rfl

theorem custom_eq {items : List NodeId}
    (h : Step d key value ((subvalues key value).refill items) d')
    (hl : items.length = (subvalues key value).items.length) : d'.node.custom =
    if isKept key value then d.node.custom.insert key value else d.node.custom := by
  generalize hids : (subvalues key value).refill items = ids at h
  cases h with
  | fill s hs =>
    simp only [subvalues, hs] at hl hids
    subst hids
    simp only [isKept, hs]
    exact d.custom_fill s key value hl
  | extension h =>
    rw [isKept_eq_false (.inl h), if_neg Bool.false_ne_true]
    rfl
  | annotated h =>
    rw [isKept_eq_false (.inr (.inl h)), if_neg Bool.false_ne_true]
    rfl
  | nullable h =>
    subst h
    rw [isKept_nullable]
    cases value <;> rfl
  | additionalItems h => rw [isKept_eq_false (.inr (.inr h)), if_neg Bool.false_ne_true]
  | plain k n hk hp hn =>
    have hfits : k.fits value := by rw [← d.node.isSome_withPlain?, hn]; rfl
    rw [isKept_plain hk hp, hfits, if_neg (by decide)]
    exact (Node.others_withPlain? hn).2.2.2.2.2.2
  | keep _ h =>
    rw [if_pos h]
    rfl

end Step

end Draft



/-- A member under the word of a keyword without subschemas. -/
theorem Draft.read_word {k : Keyword} (hp : k.isPlain) (d : Draft) (value : Value)
    (ids : Below NodeId) : d.read k.word value ids = d.readPlain k k.word value := by
  have hs := Slot.ofWord?_of_isPlain hp
  obtain ⟨hx, ha, hn, hi⟩ := isReserved_eq_false_iff.mp k.not_isReserved
  simp only [read, hs, readOther, hx, ha, Bool.false_eq_true, hn, hi, Keyword.ofWord?_word,
    ↓reduceIte]

/-! ## All members -/

namespace Reads

variable {S : Value → NodeId → Prop} {d : Draft} {members : List (String × Value)}

/-- A part of a draft that members under other keys leave alone: as at first without a member under
the key, and else what this member makes of it. -/
theorem part {φ : Draft → α} (key : String) (h : Reads S {} members d)
    (hkeys : (members.map Prod.fst).Nodup)
    (frame : ∀ m ∈ members, m.1 ≠ key → ∀ (d : Draft) (ids : List NodeId),
      φ (d.read m.1 m.2 ((subvalues m.1 m.2).refill ids)) = φ d) :
    Entries.get? key members = none ∧ φ d = φ {} ∨
      ∃ value d₁ ids, Entries.get? key members = some value ∧ φ d₁ = φ {} ∧
        List.Forall₂ S (subvalues key value).items ids ∧
        φ d = φ (d₁.read key value ((subvalues key value).refill ids)) := by
  cases hget : Entries.get? key members with
  | none =>
    refine .inl ⟨rfl, h.eq_of_frame fun m hm d ids => frame m hm ?_ d ids⟩
    rintro rfl
    exact Entries.get?_eq_none_iff.mp hget (List.mem_map_of_mem hm)
  | some value =>
    obtain ⟨d₁, ids, h₁, hids, h₂⟩ := h.eq_of_get? hkeys hget frame
    exact .inr ⟨value, d₁, ids, rfl, h₁, hids, h₂⟩

theorem boolean (h : Reads S {} members d) : d.node.boolean = none :=
  h.eq_of_frame (φ := fun d => d.node.boolean) fun m _ d _ => (d.step m.1 m.2 _).boolean_eq

theorem typesInferred (h : Reads S {} members d) : d.node.typesInferred = false :=
  h.eq_of_frame (φ := fun d => d.node.typesInferred) fun m _ d _ =>
    (d.step m.1 m.2 _).typesInferred_eq

theorem extensions (h : Reads S {} members d) (hkeys : (members.map Prod.fst).Nodup) :
    d.node.extensions.entries = members.filter fun m => Text.startsWith "x-" m.1 :=
  h.entries_eq (φ := fun d => d.node.extensions) hkeys (by simp [OrderedMap.keys])
    fun d key value _ _ => (d.step key value _).extensions_eq

theorem annotations (h : Reads S {} members d) (hkeys : (members.map Prod.fst).Nodup) :
    d.node.annotations.entries = members.filter fun m => annotationWords.contains m.1 :=
  h.entries_eq (φ := fun d => d.node.annotations) hkeys (by simp [OrderedMap.keys])
    fun d key value _ _ => (d.step key value _).annotations_eq

theorem custom (h : Reads S {} members d) (hkeys : (members.map Prod.fst).Nodup) :
    d.node.custom.entries = members.filter fun m => isKept m.1 m.2 :=
  h.entries_eq (φ := fun d => d.node.custom) hkeys (by simp [OrderedMap.keys])
    fun d key value _ hl => (d.step key value _).custom_eq hl

theorem plainValue? (h : Reads S {} members d) (hkeys : (members.map Prod.fst).Nodup)
    {k : Keyword} (hp : k.isPlain) (hk : k ≠ .type) :
    d.node.plainValue? k = (Entries.get? k.word members).bind k.normal? := by
  have hempty : ({} : Draft).node.plainValue? k = none := by
    cases k <;> rfl
  rcases h.part (φ := fun d => d.node.plainValue? k) k.word hkeys
    (fun m _ hm d _ => (d.step m.1 m.2 _).plainValue?_eq hm) with
    ⟨hget, hd⟩ | ⟨value, d₁, ids, hget, h₁, -, hd⟩
  · rw [hget, hd, hempty]
    rfl
  · rw [hget, hd, Draft.read_word hp, Draft.readPlain, Option.bind_some]
    cases hw : d₁.node.withPlain? k value with
    | some n => exact Node.plainValue?_withPlain?_self hw hk
    | none =>
      have hfits : ({} : Node).withPlain? k value = none := by
        rw [← Option.isNone_iff_eq_none, ← Option.not_isSome, Node.isSome_withPlain?,
          ← d₁.node.isSome_withPlain?, hw]
        rfl
      have hkeep : (d₁.keep k.word value).node.plainValue? k = d₁.node.plainValue? k := by
        cases k <;> rfl
      rw [Keyword.normal?, hfits]
      exact hkeep.trans (h₁.trans hempty)

theorem types (h : Reads S {} members d) (hkeys : (members.map Prod.fst).Nodup) :
    d.node.types = declaredTypes (Entries.get? "type" members) := by
  rcases h.part (φ := fun d => d.node.types) "type" hkeys
    (fun m _ hm d _ => (d.step m.1 m.2 _).types_eq hm) with
    ⟨hget, hd⟩ | ⟨value, d₁, ids, hget, h₁, -, hd⟩
  · rw [hget, hd]
    rfl
  · rw [hget, hd]
    show (d₁.read Keyword.type.word value _).node.types = _
    rw [Draft.read_word rfl, Draft.readPlain]
    cases hw : d₁.node.withPlain? .type value with
    | some n => exact Node.types_withPlain?_self hw h₁
    | none =>
      have ht : typesOf? value = none := Option.map_eq_none_iff.mp hw
      rw [declaredTypes, Option.bind_some, ht]
      exact h₁

theorem nullable (h : Reads S {} members d) (hkeys : (members.map Prod.fst).Nodup) :
    d.nullable = ((Entries.get? "nullable" members).bind Value.bool?).getD false := by
  rcases h.part (φ := fun d => d.nullable) "nullable" hkeys
    (fun m _ hm d _ => (d.step m.1 m.2 _).nullable_eq hm) with
    ⟨hget, hd⟩ | ⟨value, d₁, ids, hget, h₁, -, hd⟩
  · rw [hget, hd]
    rfl
  · rw [hget, hd]
    cases value <;> rfl

theorem itemsWereList (h : Reads S {} members d) (hkeys : (members.map Prod.fst).Nodup) :
    d.itemsWereList = ((Entries.get? "items" members).bind Value.items?).isSome := by
  rcases h.part (φ := fun d => d.itemsWereList) "items" hkeys
    (fun m _ hm d _ => (d.step m.1 m.2 _).itemsWereList_eq hm) with
    ⟨hget, hd⟩ | ⟨value, d₁, ids, hget, h₁, hids, hd⟩
  · rw [hget, hd]
    rfl
  · have hs : Slot.ofWord? "items" = some (.child .items) := Slot.ofWord?_word (.child .items)
    simp only [subvalues, Draft.read, hs] at hids hd
    rw [hget, hd]
    rcases Slot.below_child .items value with ⟨hv, hb⟩ | ⟨items, -, rfl, hb⟩ | ⟨-, hv, hb⟩
    · rw [hb] at hids ⊢
      obtain ⟨id, _, -, ⟨⟩, rfl⟩ := List.forall₂_cons_left_iff.mp hids
      have : value.items? = none := by cases value <;> first | rfl | cases hv
      rw [Option.bind_some, this]
      exact h₁
    · rw [hb]
      rfl
    · rw [hb, Option.bind_some, hv rfl]
      exact h₁

/-- One subschema. -/
theorem child (h : Reads S {} members d) (hkeys : (members.map Prod.fst).Nodup)
    (k : ChildKeyword) :
    Option.Rel S ((Entries.get? k.word members).filter (Schema.isSchema ·)) (d.node.child k) := by
  rcases h.part (φ := fun d => d.node.child k) k.word hkeys
    (fun m _ hm d _ => (d.step m.1 m.2 _).child_eq hm) with
    ⟨hget, hd⟩ | ⟨value, d₁, ids, hget, h₁, hids, hd⟩
  · rw [hget, hd]
    exact .none
  · have hs : Slot.ofWord? k.word = some (.child k) := Slot.ofWord?_word (.child k)
    simp only [subvalues, Draft.read, hs] at hids hd
    rw [hget, hd]
    rcases Slot.below_child k value with ⟨hv, hb⟩ | ⟨items, rfl, rfl, hb⟩ | ⟨hv, -, hb⟩
    · rw [hb] at hids ⊢
      obtain ⟨id, _, hid, ⟨⟩, rfl⟩ := List.forall₂_cons_left_iff.mp hids
      have hchild : (d₁.setChild k k.word value (some id)).node.child k = some id := update_self ..
      rw [Below.refill, Draft.fill_one, hchild, Option.filter_some, if_pos hv]
      exact .some hid
    · rw [hb]
      have hchild : (d₁.fill (.child .items) ChildKeyword.items.word (.array items)
          (.list ids)).node.child .items = none := h₁
      rw [Below.refill, hchild]
      exact .none
    · have hchild : (d₁.keep k.word value).node.child k = none := h₁
      rw [hb, Below.refill_nothing, Draft.fill_nothing, hchild, Option.filter_some,
        if_neg (by simp [hv])]
      exact .none

/-- A list of subschemas; that of prefix items may also stand under `items`. -/
theorem list (h : Reads S {} members d) (hkeys : (members.map Prod.fst).Nodup)
    (k : ListKeyword)
    (hi : k = .prefixItems → (Entries.get? "items" members).bind Value.items? = none) :
    List.Forall₂ S (((Entries.get? k.word members).bind Value.items?).getD [])
      (d.node.list k) := by
  have hitems : ∀ m ∈ members, m.1 = "items" → k = .prefixItems → m.2.items? = none := by
    intro m hm hw hk
    have := hi hk
    rw [Entries.get?_of_mem hkeys (hw ▸ hm : ("items", m.2) ∈ members)] at this
    exact this
  rcases h.part (φ := fun d => d.node.list k) k.word hkeys
    (fun m hm hne d _ => (d.step m.1 m.2 _).list_eq hne (hitems m hm)) with
    ⟨hget, hd⟩ | ⟨value, d₁, ids, hget, h₁, hids, hd⟩
  · rw [hget, hd]
    exact .nil
  · have hs : Slot.ofWord? k.word = some (.list k) := Slot.ofWord?_word (.list k)
    simp only [subvalues, Draft.read, hs] at hids hd
    rw [hget, hd, Option.bind_some]
    cases value with
    | array items =>
      have hlist : (d₁.fill (.list k) k.word (.array items) (.list ids)).node.list k = ids :=
        update_self _ _ _
      exact hlist.symm ▸ hids
    | _ =>
      have hlist : ∀ value, (d₁.fill (.list k) k.word value .nothing).node.list k = [] :=
        fun _ => h₁
      exact (hlist _).symm ▸ .nil

/-- A map of subschemas; that of definitions may also stand under `definitions`. -/
theorem map (h : Reads S {} members d) (hkeys : (members.map Prod.fst).Nodup)
    (k : MapKeyword)
    (hd : k = .defs → (Entries.get? "definitions" members).bind Value.members? = none) :
    ∃ ids, List.Forall₂ S
      ((((Entries.get? k.word members).bind Value.members?).getD []).map Prod.snd) ids ∧
      d.node.map k = .ofList
        (((((Entries.get? k.word members).bind Value.members?).getD []).map Prod.fst).zip ids) := by
  have hdefs : ∀ m ∈ members, m.1 = "definitions" → k = .defs → m.2.members? = none := by
    intro m hm hw hk
    have := hd hk
    rw [Entries.get?_of_mem hkeys (hw ▸ hm : ("definitions", m.2) ∈ members)] at this
    exact this
  rcases h.part (φ := fun d => d.node.map k) k.word hkeys
    (fun m hm hne d _ => (d.step m.1 m.2 _).map_eq hne (hdefs m hm)) with
    ⟨hget, hd⟩ | ⟨value, d₁, ids, hget, h₁, hids, hd⟩
  · rw [hget, hd]
    exact ⟨[], .nil, rfl⟩
  · have hs : Slot.ofWord? k.word = some (.map k) := Slot.ofWord?_word (.map k)
    simp only [subvalues, Draft.read, hs] at hids hd
    rw [hget, hd, Option.bind_some]
    cases value with
    | object entries =>
      refine ⟨ids, hids, ?_⟩
      have hmap : (d₁.fill (.map k) k.word (.object entries)
          (.map ((entries.map Prod.fst).zip ids))).node.map k =
          (if k = .defs then d₁.node.map k else .empty).insertAll
            ((entries.map Prod.fst).zip ids) := update_self _ _ _
      have hstart : (if k = .defs then d₁.node.map k else .empty) = .empty := by
        rw [h₁]
        exact ite_self _
      rw [hstart] at hmap
      exact hmap
    | _ => exact ⟨[], .nil, h₁⟩

end Reads

end OpenApi.Schema
