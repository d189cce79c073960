import OpenApi.Proofs.Schema.ReadNode
import OpenApi.Proofs.Schema.Writing

/-!
# What is written of a node that was read

* `ReadsObject.sorted`: everything that the node of an object keeps is where it belongs, so that a
  custom keyword is never written over a keyword, an annotation or an extension, but for `nullable`;
* `ReadsObject.get?_members_of_plainValue?`, `ReadsObject.get?_members_slot`: a keyword is written
  with its own value, or it has none and a custom keyword stands in its place;
* `ReadsObject.shownTypes_members`, `ReadsObject.nullableNote_members`,
  `ReadsObject.additionalNote_members`: what the members come to together is written too, and the
  older forms are not.
-/

namespace OpenApi.Schema

open Json

/-- The members use no keyword beside its older form. -/
structure Unambiguous (ms : List (String × Value)) : Prop where
  definitions : Entries.get? "$defs" ms = none ∨ Entries.get? "definitions" ms = none
  items : Entries.get? "prefixItems" ms = none ∨ listsItems ms = false

/-! ## Nodes that were read -/

/-- What is written for a slot fits there. -/
theorem Node.isNothing_below_slotValue? {n : Node} {write : NodeId → Value} {s : Slot} {v : Value}
    (hwrite : ∀ c ∈ n.slot s, isSchema (write c)) (hv : n.slotValue? write s = some v) :
    (s.below v).isNothing = false := by
  cases s with
  | child k =>
    obtain ⟨c, hc, rfl⟩ := Option.map_eq_some_iff.mp hv
    have hs := hwrite c (Option.mem_toList.mpr hc)
    rcases Slot.below_child k (write c) with ⟨-, hb⟩ | ⟨_, -, _, hb⟩ | ⟨hn, -, -⟩
    · rw [hb]
      rfl
    · rw [hb]
      rfl
    · rw [hs] at hn
      cases hn
  | list k =>
    simp only [slotValue?] at hv
    split at hv
    · cases hv
    · cases hv
      rfl
  | map k =>
    simp only [slotValue?] at hv
    split at hv
    · cases hv
    · cases hv
      rfl

/-- What is written for a slot holds what is written of its subschemas. -/
theorem Node.mem_below_slotValue? {n : Node} {write : NodeId → Value} {s : Slot} {v u : Value}
    (hwrite : ∀ c ∈ n.slot s, isSchema (write c)) (hv : n.slotValue? write s = some v)
    (hu : u ∈ (s.below v).items) : ∃ c ∈ n.slot s, u = write c := by
  cases s with
  | child k =>
    obtain ⟨c, hc, rfl⟩ := Option.map_eq_some_iff.mp hv
    have hs := hwrite c (Option.mem_toList.mpr hc)
    rcases Slot.below_child k (write c) with ⟨-, hb⟩ | ⟨_, -, hv, -⟩ | ⟨hn, -, -⟩
    · rw [hb] at hu
      exact ⟨c, Option.mem_toList.mpr hc, List.mem_singleton.mp hu⟩
    · rw [hv] at hs
      cases hs
    · rw [hs] at hn
      cases hn
  | list k =>
    simp only [slotValue?] at hv
    split at hv
    · cases hv
    · cases hv
      obtain ⟨c, hc, rfl⟩ := List.mem_map.mp hu
      exact ⟨c, hc, rfl⟩
  | map k =>
    simp only [slotValue?] at hv
    split at hv
    · cases hv
    · cases hv
      obtain ⟨e, he, rfl⟩ := List.mem_map.mp hu
      obtain ⟨e', he', rfl⟩ := List.mem_map.mp he
      exact ⟨e'.2, List.mem_map_of_mem he', rfl⟩

namespace ReadsObject

section

variable {S : Value → NodeId → Prop} {ms : List (String × Value)} {n : Node}
  {write : NodeId → Value} (h : ReadsObject S ms n) (hkeys : (ms.map Prod.fst).Nodup)
include h hkeys

/-- The custom keywords are those members that are kept. -/
theorem get?_custom {key : String} (hk : key ≠ "additionalItems") :
    n.custom.get? key = (Entries.get? key ms).filter (isKept key ·) := by
  have hnote : Entries.get? key (additionalNote ms) = none := by
    rcases additionalNote_eq ms with hn | ⟨v, hn⟩
    · rw [hn]
      rfl
    · rw [hn]
      simp only [Entries.get?, Ne.symm hk, ↓reduceIte]
  rw [OrderedMap.get?, h.custom hkeys, Entries.get?_append, hnote, Option.or_none]
  exact Entries.get?_filter hkeys key fun m => isKept m.1 m.2

theorem get?_custom_additionalItems : n.custom.get? "additionalItems" =
    Entries.get? "additionalItems" (additionalNote ms) := by
  rw [OrderedMap.get?, h.custom hkeys, Entries.get?_append, Entries.get?_eq_none]
  · rfl
  · intro e he hw
    have hkept := (List.mem_filter.mp he).2
    rw [isKept_eq_false (.inr (.inr hw))] at hkept
    cases hkept

theorem plainValue?_type_of_isEmpty (ht : (shownTypes ms).isEmpty) :
    n.plainValue? .type = none := by
  have hempty : ∀ t : TypeSet, t.isEmpty → t.names = [] := fun t => List.isEmpty_iff.mp
  have htypes := h.types hkeys
  simp only [ht, Bool.true_and] at htypes
  split at htypes
  · obtain ⟨htypes, hinferred⟩ := Prod.mk.inj htypes
    simp only [Node.plainValue?, hinferred, Bool.not_eq_true']
    cases hi : n.inferredTypes.isEmpty with
    | false => rfl
    | true => simp only [htypes, hempty _ hi]; rfl
  · obtain ⟨htypes, hinferred⟩ := Prod.mk.inj htypes
    simp only [Node.plainValue?, hinferred, htypes, hempty _ ht]
    rfl

/-- The types that are written are those shown. -/
theorem typesOf?_of_not_isEmpty (ht : (shownTypes ms).isEmpty = false) :
    ∃ v, n.plainValue? .type = some v ∧ typesOf? v = some (shownTypes ms).names := by
  have htypes := h.types hkeys
  simp only [ht, Bool.false_and, Bool.false_eq_true, ↓reduceIte, Prod.mk.injEq] at htypes
  have hs : (n.plainValue? .type).isSome := by
    simp only [Node.plainValue?, htypes, Bool.false_eq_true, ↓reduceIte]
    split
    · rename_i hn
      rw [TypeSet.isEmpty, hn] at ht
      cases ht
    · rfl
    · rfl
  obtain ⟨v, hv⟩ := Option.isSome_iff_exists.mp hs
  exact ⟨v, hv, htypes.1 ▸ typesOf?_plainValue? hv⟩

omit h hkeys in
theorem shownTypes_of_not_fits {v : Value} (hget : Entries.get? "type" ms = some v)
    (hv : typesOf? v = none) : (shownTypes ms).isEmpty := by
  have hd : declaredTypes (some v) = .empty := by
    rw [declaredTypes, Option.bind_some, hv]
    rfl
  simp only [shownTypes, hget, hd]
  simp [TypeSet.empty, TypeSet.isEmpty]

theorem unset_plain {k : Keyword} (hp : k.isPlain) {v : Value}
    (hv : Entries.get? k.word ms = some v) (hkept : isKept k.word v) :
    n.keywordValue? write k = none := by
  rw [isKept_plain k.ofWord?_word hp, Bool.not_eq_true'] at hkept
  rw [Node.keywordValue?_of_isPlain hp]
  by_cases ht : k = .type
  · subst ht
    refine h.plainValue?_type_of_isEmpty hkeys (shownTypes_of_not_fits hv ?_)
    rwa [Keyword.fits, Node.withPlain?, Option.isSome_map, Option.isSome_eq_false_iff,
      Option.isNone_iff_eq_none] at hkept
  · rw [h.plainValue? hkeys hp ht, hv, Option.bind_some]
    cases hn : k.normal? v with
    | none => rfl
    | some u =>
      rw [Keyword.fits_of_normal? hn] at hkept
      cases hkept

theorem unset_child {k : ChildKeyword} {v : Value}
    (hv : Entries.get? (Slot.child k).word ms = some v)
    (hkept : ((Slot.child k).below v).isNothing) : n.slotValue? write (.child k) = none := by
  have hnone : (childSource ms k).filter (isSchema ·) = none := by
    rcases Slot.below_child k v with ⟨-, hb⟩ | ⟨items, rfl, rfl, hb⟩ | ⟨hs, hi, -⟩
    · rw [hb] at hkept
      cases hkept
    · rw [hb] at hkept
      cases hkept
    · have hl : ¬(k = .items ∧ listsItems ms) := by
        rintro ⟨rfl, hl⟩
        rw [listsItems, show "items" = (Slot.child .items).word from rfl, hv,
          Option.bind_some, hi rfl] at hl
        cases hl
      rw [childSource, if_neg hl, show k.word = (Slot.child k).word from rfl, hv,
        Option.filter_some, hs]
      rfl
  have hc := h.child hkeys k
  rw [hnone] at hc
  rw [Node.slotValue?]
  cases hn : n.child k with
  | none => rfl
  | some c =>
    rw [hn] at hc
    cases hc

theorem unset_list (hc : Unambiguous ms) {k : ListKeyword} {v : Value}
    (hv : Entries.get? (Slot.list k).word ms = some v)
    (hkept : ((Slot.list k).below v).isNothing) : n.slotValue? write (.list k) = none := by
  have hi : k = .prefixItems → listsItems ms = false := by
    rintro rfl
    refine hc.items.resolve_left fun hn => ?_
    rw [show "prefixItems" = (Slot.list .prefixItems).word from rfl, hv] at hn
    cases hn
  have hitems : v.items? = none := by
    cases v <;> first | rfl | cases hkept
  have hl := h.list hkeys k hi
  rw [show k.word = (Slot.list k).word from rfl, hv, Option.bind_some, hitems] at hl
  simp only [Node.slotValue?, List.forall₂_nil_left_iff.mp hl]
  rfl

theorem unset_map (hc : Unambiguous ms) {k : MapKeyword} {v : Value}
    (hv : Entries.get? (Slot.map k).word ms = some v)
    (hkept : ((Slot.map k).below v).isNothing) : n.slotValue? write (.map k) = none := by
  have hd : k = .defs → (Entries.get? "definitions" ms).bind Value.members? = none := by
    rintro rfl
    rw [hc.definitions.resolve_left fun hn => ?_]
    · rfl
    · rw [show "$defs" = (Slot.map .defs).word from rfl, hv] at hn
      cases hn
  have hmembers : v.members? = none := by
    cases v <;> first | rfl | cases hkept
  obtain ⟨ids, -, hm⟩ := h.map hkeys k hd
  rw [show k.word = (Slot.map k).word from rfl, hv, Option.bind_some, hmembers] at hm
  simp only [Node.slotValue?, hm]
  rfl

/-- A keyword that is kept among the custom keywords has no value of its own. -/
theorem unset (hc : Unambiguous ms) {k : Keyword} {v : Value}
    (hv : Entries.get? k.word ms = some v) (hkept : isKept k.word v) :
    n.keywordValue? write k = none := by
  cases k with
  | slot s =>
    simp only [Keyword.word] at hv
    simp only [Keyword.word, isKept, Slot.ofWord?_word] at hkept
    cases s with
    | child k => exact h.unset_child hkeys hv hkept
    | list k => exact h.unset_list hkeys hc hv hkept
    | map k => exact h.unset_map hkeys hc hv hkept
  | _ => exact h.unset_plain hkeys rfl hv hkept

theorem sorted (hc : Unambiguous ms) (hwrite : ∀ s, ∀ c ∈ n.slot s, isSchema (write c)) :
    n.Sorted write where
  annotations e he := by
    rw [h.annotations hkeys, List.mem_append] at he
    rcases he with he | he
    · exact .inl (List.mem_filter.mp he).2
    · rw [nullableNote] at he
      split at he
      · rw [List.mem_singleton] at he
        exact .inr (by rw [he]; exact ⟨rfl, rfl⟩)
      · cases he
  custom e he := by
    rw [h.custom hkeys, List.mem_append] at he
    rcases he with he | he
    · exact .inl (List.mem_filter.mp he).2
    · rcases additionalNote_eq ms with hn | ⟨v, hn⟩
      · rw [hn] at he
        cases he
      · rw [hn, List.mem_singleton] at he
        exact .inr (by rw [he])
  extensions e he := by
    rw [h.extensions hkeys] at he
    exact (List.mem_filter.mp he).2
  unset k hk := by
    obtain ⟨v, hv⟩ := Option.isSome_iff_exists.mp hk
    rw [h.get?_custom hkeys k.word_ne_additionalItems, Option.filter_eq_some_iff] at hv
    exact h.unset hkeys hc hv.1 hv.2
  fits k v hv := by
    by_cases hp : k.isPlain
    · rw [Node.keywordValue?_of_isPlain hp] at hv
      rw [isKept_plain k.ofWord?_word hp, Bool.not_eq_false']
      by_cases ht : k = .type
      · subst ht
        rw [Keyword.fits, Node.withPlain?, typesOf?_plainValue? hv]
        rfl
      · rw [h.plainValue? hkeys hp ht] at hv
        obtain ⟨u, -, hu⟩ := Option.bind_eq_some_iff.mp hv
        exact Keyword.fits_of_normal? (Keyword.normal?_normal? ht hu)
    · cases k with
      | slot s =>
        simp only [Keyword.word, isKept, Slot.ofWord?_word]
        exact Node.isNothing_below_slotValue? (hwrite s) hv
      | _ => exact absurd rfl hp

end

/-! ## The members that are written -/

section

variable {S : Value → NodeId → Prop} {ms : List (String × Value)} {n : Node}
  {write : NodeId → Value} (h : ReadsObject S ms n) (hkeys : (ms.map Prod.fst).Nodup)
  (hc : Unambiguous ms) (hwrite : ∀ s, ∀ c ∈ n.slot s, isSchema (write c))
include h hkeys hc hwrite

/-- Under the word of a keyword stands a custom keyword, or else the value of the keyword. -/
theorem get?_members_word (k : Keyword) : Entries.get? k.word (n.members write).entries =
    (n.custom.get? k.word).or (n.keywordValue? write k) := by
  have hs := h.sorted hkeys hc hwrite
  refine (n.get?_members write k.word).trans ?_
  rw [hs.get?_extensions k.word_not_extension,
    hs.get?_annotations k.word_not_in_annotations k.word_ne_nullable, n.get?_known, Option.none_or,
    Option.none_or]

theorem get?_members_of_plainValue? {k : Keyword} (hp : k.isPlain) (ht : k ≠ .type) :
    (Entries.get? k.word (n.members write).entries).bind k.normal? = n.plainValue? k := by
  rw [h.get?_members_word hkeys hc hwrite k, Node.keywordValue?_of_isPlain hp]
  cases hv : n.custom.get? k.word with
  | some v =>
    have hs := h.sorted hkeys hc hwrite
    have hn := hs.unset k (by rw [hv]; rfl)
    rw [Node.keywordValue?_of_isPlain hp] at hn
    rw [h.get?_custom hkeys k.word_ne_additionalItems, Option.filter_eq_some_iff,
      isKept_plain k.ofWord?_word hp, Bool.not_eq_true'] at hv
    rw [Option.some_or, Option.bind_some, hn]
    cases hu : k.normal? v with
    | none => rfl
    | some u =>
      rw [Keyword.fits_of_normal? hu] at hv
      cases hv.2
  | none =>
    rw [Option.none_or, h.plainValue? hkeys hp ht]
    cases hu : (Entries.get? k.word ms).bind k.normal? with
    | none => rfl
    | some u =>
      obtain ⟨v, -, hv⟩ := Option.bind_eq_some_iff.mp hu
      exact Keyword.normal?_normal? ht hv

/-- The types that are written are those shown. -/
theorem declaredTypes_members :
    declaredTypes (Entries.get? "type" (n.members write).entries) = shownTypes ms := by
  have hw := h.get?_members_word hkeys hc hwrite .type
  rw [Node.keywordValue?_of_isPlain rfl] at hw
  rw [show "type" = Keyword.type.word from rfl, hw]
  cases ht : (shownTypes ms).isEmpty with
  | true =>
    have hempty : shownTypes ms = .empty := TypeSet.ext (List.isEmpty_iff.mp ht)
    rw [h.plainValue?_type_of_isEmpty hkeys ht, Option.or_none, hempty,
      h.get?_custom hkeys (by decide)]
    cases hv : (Entries.get? Keyword.type.word ms).filter (isKept Keyword.type.word ·) with
    | none => rfl
    | some v =>
      rw [Option.filter_eq_some_iff, isKept_plain Keyword.type.ofWord?_word rfl,
        Bool.not_eq_true', Keyword.fits, Node.withPlain?, Option.isSome_map,
        Option.isSome_eq_false_iff, Option.isNone_iff_eq_none] at hv
      rw [declaredTypes, Option.bind_some, hv.2]
      rfl
  | false =>
    obtain ⟨v, hv, hnames⟩ := h.typesOf?_of_not_isEmpty hkeys ht
    have hnone : n.custom.get? Keyword.type.word = none := by
      cases hv' : n.custom.get? Keyword.type.word with
      | none => rfl
      | some u =>
        have hu := (h.sorted hkeys hc hwrite).unset .type (by rw [hv']; rfl)
        rw [Node.keywordValue?_of_isPlain rfl, hv] at hu
        cases hu
    rw [hnone, Option.none_or, hv, declaredTypes, Option.bind_some, hnames]
    exact TypeSet.ofList_names _

theorem get?_members_nullable : Entries.get? "nullable" (n.members write).entries =
    ((Entries.get? "nullable" ms).filter (·.bool?.isNone)).or
      (Entries.get? "nullable" (nullableNote ms)) := by
  have hs := h.sorted hkeys hc hwrite
  have hx : n.extensions.get? "nullable" = none := hs.get?_extensions (by decide +kernel)
  have ha : n.annotations.get? "nullable" = Entries.get? "nullable" (nullableNote ms) := by
    rw [OrderedMap.get?, h.annotations hkeys, Entries.get?_append, Entries.get?_eq_none]
    · rfl
    · intro e he hw
      have hword := (List.mem_filter.mp he).2
      rw [hw] at hword
      cases hword
  refine (n.get?_members write _).trans ?_
  rw [hx, ha, h.get?_custom hkeys (by decide), n.get?_known_of_isReserved write (by decide +kernel),
    Option.none_or, Option.or_none]
  rfl

/-- `nullable` says the same again where no types are declared, and nothing beside types. -/
theorem allowsNull_members : allowsNull (n.members write).entries =
    ((shownTypes ms).isEmpty && allowsNull ms) := by
  rw [isEmpty_shownTypes, allowsNull, h.get?_members_nullable hkeys hc hwrite, nullableNote]
  cases hv : Entries.get? "nullable" ms with
  | none =>
    have hn : allowsNull ms = false := by rw [allowsNull, hv]; rfl
    rw [hn, Bool.and_false]
    rfl
  | some v =>
    have hbool : ∀ b, (Value.bool b).bool? = some b := fun _ => rfl
    cases hd : (declaredTypes (Entries.get? "type" ms)).isEmpty <;> cases hb : v.bool? <;>
      simp [Option.filter_some, Entries.get?, allowsNull, hv, hb, hbool]

theorem shownTypes_members : shownTypes (n.members write).entries = shownTypes ms := by
  rw [shownTypes, h.declaredTypes_members hkeys hc hwrite, h.allowsNull_members hkeys hc hwrite]
  cases (shownTypes ms).isEmpty <;> simp

theorem nullableNote_members : nullableNote (n.members write).entries = nullableNote ms := by
  rw [nullableNote, h.declaredTypes_members hkeys hc hwrite, h.allowsNull_members hkeys hc hwrite,
    isEmpty_shownTypes, h.get?_members_nullable hkeys hc hwrite, nullableNote]
  cases (declaredTypes (Entries.get? "type" ms)).isEmpty with
  | false => simp
  | true =>
    cases hv : Entries.get? "nullable" ms with
    | none => simp [Entries.get?]
    | some v => cases hb : v.bool? <;> simp [Option.filter_some, Entries.get?, hb]

theorem get?_members_additionalItems :
    Entries.get? "additionalItems" (n.members write).entries =
      Entries.get? "additionalItems" (additionalNote ms) := by
  have hs := h.sorted hkeys hc hwrite
  have hx : n.extensions.get? "additionalItems" = none := hs.get?_extensions (by decide +kernel)
  have ha : n.annotations.get? "additionalItems" = none :=
    hs.get?_annotations (by decide) (by decide)
  refine (n.get?_members write _).trans ?_
  rw [hx, h.get?_custom_additionalItems hkeys, ha,
    n.get?_known_of_isReserved write (by decide +kernel), Option.none_or, Option.none_or,
    Option.or_none]

theorem listsItems_members : listsItems (n.members write).entries = false := by
  have hw := h.get?_members_word hkeys hc hwrite (.slot (.child .items))
  rw [listsItems, show "items" = (Keyword.slot (.child .items)).word from rfl, hw,
    h.get?_custom hkeys (by decide)]
  cases hv : (Entries.get? (Keyword.slot (.child .items)).word ms).filter
      (isKept (Keyword.slot (.child .items)).word ·) with
  | some v =>
    have hkept : ((Slot.child .items).below v).isNothing := (Option.filter_eq_some_iff.mp hv).2
    have hitems : v.items? = none := by
      cases v <;> first | rfl | cases hkept
    rw [Option.some_or, Option.bind_some, hitems]
    rfl
  | none =>
    simp only [Option.none_or, Node.keywordValue?, Node.slotValue?]
    cases hn : n.child .items with
    | none => rfl
    | some c =>
      have hs := hwrite (.child .items) c (Option.mem_toList.mpr hn)
      have hitems : (write c).items? = none := by
        cases hv : write c <;> first | rfl | (rw [hv] at hs; cases hs)
      rw [Option.map_some, Option.bind_some, hitems]
      rfl

theorem additionalNote_members : additionalNote (n.members write).entries = additionalNote ms := by
  rw [additionalNote, h.get?_members_additionalItems hkeys hc hwrite,
    h.listsItems_members hkeys hc hwrite]
  rcases additionalNote_eq ms with hn | ⟨v, hn⟩
  · rw [hn]
    rfl
  · rw [hn]
    rfl

/-- No definitions are written in the older form. -/
theorem members?_definitions_members :
    (Entries.get? "definitions" (n.members write).entries).bind Value.members? = none := by
  have hs := h.sorted hkeys hc hwrite
  have hx : n.extensions.get? "definitions" = none := hs.get?_extensions (by decide +kernel)
  have ha : n.annotations.get? "definitions" = none := hs.get?_annotations (by decide) (by decide)
  have hknown : Entries.get? "definitions" (n.known write) = none := by
    refine Entries.get?_eq_none fun e he hw => ?_
    obtain ⟨k, hk, -⟩ := Node.mem_known.mp he
    exact k.word_ne_definitions (hk.symm.trans hw)
  have hg := (n.get?_members write "definitions").trans
    (by rw [hx, ha, hknown, Option.none_or, Option.or_none, Option.or_none])
  rw [show Entries.get? "definitions" (n.members write).entries = _ from hg,
    h.get?_custom hkeys (by decide)]
  cases hv : (Entries.get? "definitions" ms).filter (isKept "definitions" ·) with
  | none => rfl
  | some v =>
    have hkept : ((Slot.map .defs).below v).isNothing := (Option.filter_eq_some_iff.mp hv).2
    cases v <;> first | rfl | cases hkept

/-- Under the word of a slot stands its value, or for an empty slot what does not fit there. -/
theorem get?_members_slot (s : Slot) :
    Entries.get? s.word (n.members write).entries = n.slotValue? write s ∨
      n.slotValue? write s = none ∧
        ∃ v, Entries.get? s.word (n.members write).entries = some v ∧ (s.below v).isNothing := by
  have hw := h.get?_members_word hkeys hc hwrite (.slot s)
  simp only [Keyword.word] at hw
  cases hv : n.custom.get? s.word with
  | none =>
    rw [hv, Option.none_or] at hw
    exact .inl hw
  | some v =>
    have hu := (h.sorted hkeys hc hwrite).unset (.slot s) (Option.isSome_iff_exists.mpr ⟨v, hv⟩)
    have hne : s.word ≠ "additionalItems" := (Keyword.slot s).word_ne_additionalItems
    rw [hv, Option.some_or] at hw
    rw [h.get?_custom hkeys hne, Option.filter_eq_some_iff, isKept_slot] at hv
    exact .inr ⟨hu, v, hw, hv.2⟩

/-- All subschemas that are written are those of the node. -/
theorem mem_subvalues_members {m : String × Value} {v : Value}
    (hm : m ∈ (n.members write).entries) (hv : v ∈ (subvalues m.1 m.2).items) :
    ∃ s, ∃ c ∈ n.slot s, v = write c := by
  have hget : Entries.get? m.1 (n.members write).entries = some m.2 :=
    Entries.get?_of_mem (n.members write).nodup hm
  rw [subvalues] at hv
  split at hv
  · rename_i s hs
    rcases Slot.ofWord?_eq_some_iff.mp hs with hw | ⟨hw, rfl⟩
    · rw [← hw] at hget
      rcases h.get?_members_slot hkeys hc hwrite s with hslot | ⟨-, v', hslot, hb⟩
      · rw [hget] at hslot
        exact ⟨s, Node.mem_below_slotValue? (hwrite s) hslot.symm hv⟩
      · rw [hget] at hslot
        cases hslot
        cases hbelow : s.below m.2 <;> rw [hbelow] at hb hv <;> first | (cases hb; done) | cases hv
    · have hd := h.members?_definitions_members hkeys hc hwrite
      rw [← hw, hget, Option.bind_some] at hd
      cases hm : m.2 <;> rw [hm] at hd hv <;> first | (cases hd; done) | cases hv
  · cases hv

end

end ReadsObject

end OpenApi.Schema
