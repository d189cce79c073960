import Mathlib.Algebra.GroupWithZero.Nat
import Mathlib.Algebra.Order.BigOperators.Group.List
import Mathlib.Algebra.Order.Group.Nat
import OpenApi.Proofs.Parameter.Decoding

/-!
# Path parameters as expansions of templates

RFC 6570 gives each path style an operator of URI templates. What is written for a path parameter is
the expansion of its operator, except that exploded pairs are always written with their `=`.

* `Template.Operator.expand`: the expansion of one variable;
* `layout_eq_expand`: each layout of a path style writes out all pairs;
* `Encoding.encode_eq_expand_iff`: exactly when the text is the expansion.
-/

namespace OpenApi.Parameter

/-! ## Templates -/

namespace Template

/-- What a variable is given: a text, or a list or pairs of texts. -/
inductive Assigned where
  | text (s : String)
  | composite (content : Content)
deriving DecidableEq

namespace Assigned

/-- What is given as a value. -/
def value : Assigned → Json.Value
  | .text s => .string s
  | .composite content => content.value

/-- Whether a variable is defined by it: lists and pairs without members leave it undefined. -/
def IsDefined : Assigned → Prop
  | .text _ => True
  | .composite content => content.isEmpty = false

end Assigned

/-- An operator: what comes first, what separates exploded members, whether members carry names, and
whether an exploded pair with an empty value is its name alone. -/
structure Operator where
  first : String
  separator : String
  named : Bool
  bare : Bool
deriving DecidableEq

/-- The two accounts of exploded pairs with empty values. By the rules of variable expansion such a
pair is its name alone for every operator of a path style; the algorithm that implements them keeps
`name=` for operators without names. -/
inductive Account where
  | rules
  | algorithm
deriving DecidableEq

namespace Operator

/-- The operator of a path style. -/
def ofStyle? (account : Account) : Style → Option Operator
  | .simple => some { first := "", separator := ",", named := false, bare := account == .rules }
  | .label => some { first := ".", separator := ".", named := false, bare := account == .rules }
  | .matrix => some { first := ";", separator := ";", named := true, bare := true }
  | _ => none

/-- An exploded pair. -/
def pairText (op : Operator) (m : String × String) : String :=
  if op.bare = true ∧ m.2 = "" then escapeUnreserved m.1 else escapedPair m

/-- The exploded members; those of a list are pairs with the name of the variable if members carry
names. -/
def exploded (op : Operator) (name : String) : Content → List String
  | .list items =>
    if op.named then items.map fun item => op.pairText (name, item)
    else items.map escapeUnreserved
  | .object members => members.map op.pairText

/-- The expansion of a defined variable, with the explode modifier or without. -/
def expand (op : Operator) (explode : Bool) (name : String) : Assigned → String
  | .text s =>
    op.first ++
      if op.named then name ++ if s = "" then "" else "=" ++ escapeUnreserved s
      else escapeUnreserved s
  | .composite content =>
    op.first ++
      if explode then op.separator.intercalate (op.exploded name content)
      else (if op.named then name ++ "=" else "") ++
        ",".intercalate (content.strings.map escapeUnreserved)

/-- Whether an exploded pair with an empty value is among the members. -/
def HasBare (op : Operator) : Assigned → Prop
  | .text _ => False
  | .composite (.list items) => op.named = true ∧ op.bare = true ∧ "" ∈ items
  | .composite (.object members) => op.bare = true ∧ ∃ m ∈ members, m.2 = ""

instance (op : Operator) : (v : Assigned) → Decidable (op.HasBare v)
  | .text _ => inferInstanceAs (Decidable False)
  | .composite (.list items) =>
    inferInstanceAs (Decidable (op.named = true ∧ op.bare = true ∧ "" ∈ items))
  | .composite (.object members) =>
    inferInstanceAs (Decidable (op.bare = true ∧ ∃ m ∈ members, m.2 = ""))

/-- The operator that writes every exploded pair as `name=value`. -/
def writtenOut (op : Operator) : Operator := { op with bare := false }

end Operator

end Template

open Template

variable {op : Operator} {account : Account} {style : Style} {explode : Bool} {name : String}

/-! ## Pairs with empty values -/

namespace Template.Operator

theorem pairText_writtenOut (op : Operator) : op.writtenOut.pairText = escapedPair := by
  funext m
  rw [pairText, if_neg (fun h => Bool.false_ne_true h.1)]

theorem pairText_of_bare {m : String × String} (hb : op.bare = true) (hm : m.2 = "") :
    op.pairText m = escapeUnreserved m.1 := if_pos ⟨hb, hm⟩

theorem pairText_of_not_bare {m : String × String} (h : ¬(op.bare = true ∧ m.2 = "")) :
    op.pairText m = escapedPair m := if_neg h

theorem length_escapedPair (m : String × String) :
    (escapedPair m).length =
      (escapeUnreserved m.1).length + 1 + (escapeUnreserved m.2).length := by
  rw [escapedPair, pair, String.length_append, String.length_append]
  rfl

/-- A pair never gets longer by its empty value. -/
theorem length_pairText_le (op : Operator) (m : String × String) :
    (op.pairText m).length ≤ (escapedPair m).length := by
  rw [pairText]
  split
  · rw [length_escapedPair]
    omega
  · exact Nat.le_refl _

theorem length_pairText_lt {m : String × String} (hb : op.bare = true) (hm : m.2 = "") :
    (op.pairText m).length < (escapedPair m).length := by
  rw [pairText_of_bare hb hm, length_escapedPair]
  omega

end Template.Operator

theorem length_intercalate (separator : String) (texts : List String) :
    (separator.intercalate texts).length =
      (texts.map String.length).sum + (texts.length - 1) * separator.length := by
  induction texts with
  | nil => simp
  | cons text texts ih =>
    cases texts with
    | nil => simp
    | cons next texts =>
      rw [String.intercalate_cons_cons, String.length_append, String.length_append, ih]
      simp only [List.map_cons, List.sum_cons, List.length_cons, Nat.add_sub_cancel]
      rw [Nat.add_mul _ 1, Nat.one_mul]
      omega

/-- Joined texts differ if none of the one side is longer and one is shorter. -/
theorem intercalate_map_ne {α : Type} {separator : String} {f g : α → String} {l : List α}
    (hle : ∀ a ∈ l, (f a).length ≤ (g a).length) (hlt : ∃ a ∈ l, (f a).length < (g a).length) :
    separator.intercalate (l.map f) ≠ separator.intercalate (l.map g) := by
  intro h
  have hsum : (l.map fun a => (f a).length).sum < (l.map fun a => (g a).length).sum :=
    List.sum_lt_sum _ _ hle hlt
  have hlength := congrArg String.length h
  rw [length_intercalate, length_intercalate, List.map_map, List.map_map, List.length_map,
    List.length_map] at hlength
  exact absurd (Nat.add_right_cancel hlength) (Nat.ne_of_lt hsum)

namespace Template.Operator

/-- Joined pairs are those written out exactly where no pair is its name alone. -/
theorem intercalate_pairText_eq_iff (op : Operator) (members : List (String × String)) :
    op.separator.intercalate (members.map escapedPair) =
        op.separator.intercalate (members.map op.pairText) ↔
      ¬(op.bare = true ∧ ∃ m ∈ members, m.2 = "") := by
  constructor
  · rintro heq ⟨hb, m, hm, hempty⟩
    exact intercalate_map_ne (fun m _ => op.length_pairText_le m)
      ⟨m, hm, length_pairText_lt hb hempty⟩ heq.symm
  · intro hnone
    refine congrArg op.separator.intercalate (List.map_congr_left fun m hm => ?_)
    exact (pairText_of_not_bare fun h => hnone ⟨h.1, m, hm, h.2⟩).symm

/-- Writing out all pairs makes no difference exactly where no pair is its name alone. -/
theorem expand_writtenOut_eq_iff (op : Operator) (explode : Bool) (name : String) (v : Assigned) :
    op.writtenOut.expand explode name v = op.expand explode name v ↔
      ¬(explode = true ∧ op.HasBare v) := by
  cases v with
  | text s => exact iff_of_true rfl fun h => h.2
  | composite content =>
    cases explode with
    | false =>
      refine iff_of_true ?_ fun h => Bool.false_ne_true h.1
      simp only [expand, Bool.false_eq_true, if_false]
      rfl
    | true =>
      have body : op.writtenOut.expand true name (.composite content) =
          op.expand true name (.composite content) ↔
        op.separator.intercalate (op.writtenOut.exploded name content) =
          op.separator.intercalate (op.exploded name content) :=
        String.append_right_inj op.first
      rw [body, eq_self, true_and]
      cases content with
      | list items =>
        simp only [exploded, HasBare]
        cases hn : op.named with
        | false =>
          have hn' : op.writtenOut.named = false := hn
          simp [hn']
        | true =>
          have hn' : op.writtenOut.named = true := hn
          have hpairs := op.intercalate_pairText_eq_iff (items.map fun item => (name, item))
          simpa [hn', pairText_writtenOut, Function.comp_def] using hpairs
      | object members =>
        rw [exploded, pairText_writtenOut]
        exact op.intercalate_pairText_eq_iff members

end Template.Operator

/-! ## Layouts of path styles -/

theorem escapeUnreserved_eq_self {s : String} (h : ∀ c ∈ s.toList, isUnreserved c = true) :
    escapeUnreserved s = s := by
  rw [escapeUnreserved, Percent.encode, Percent.encodeChars_eq_self h, String.ofList_toList]

theorem escapeUnreserved_eq_empty_iff {s : String} : escapeUnreserved s = "" ↔ s = "" := by
  constructor
  · intro h
    rw [← decode_escapeUnreserved s, h]
    decide
  · rintro rfl
    rfl

/-- The escaped members of what is given. -/
def Template.Assigned.parts : Assigned → Parts
  | .text s => .scalar (escapeUnreserved s)
  | .composite content => content.parts

theorem simpleText_eq_expand (hop : Operator.ofStyle? account .simple = some op) (name : String)
    (v : Assigned) : simpleText explode v.parts = op.writtenOut.expand explode name v := by
  cases hop
  cases v with
  | text s => exact String.empty_append.symm
  | composite content =>
    rw [Assigned.parts, Content.simpleText_parts]
    simp only [Operator.expand, Operator.exploded, Operator.pairText_writtenOut]
    cases content <;> cases explode <;>
      simp [Operator.writtenOut, Content.shape, Content.strings, Content.pairs]

theorem labelText_eq_expand (hop : Operator.ofStyle? account .label = some op) (name : String)
    (v : Assigned) : labelText explode v.parts = op.writtenOut.expand explode name v := by
  cases hop
  cases v with
  | text s => cases explode <;> rfl
  | composite content =>
    have hflat := content.flat_parts
    simp only [Operator.expand, Operator.exploded, Operator.pairText_writtenOut, ← hflat]
    cases content <;> cases explode <;>
      simp [labelText, Operator.writtenOut, Assigned.parts, Content.parts, Content.pairs_escaped]

theorem matrixText_eq_expand (hop : Operator.ofStyle? account .matrix = some op)
    {v : Assigned} (hv : v.IsDefined) (hname : escapeUnreserved name = name) :
    matrixText name explode v.parts = op.writtenOut.expand explode name v := by
  cases hop
  cases v with
  | text s =>
    have hempty : (Parts.scalar (escapeUnreserved s)).isEmpty = decide (s = "") := by
      rw [Parts.isEmpty, Bool.eq_iff_iff, String.isEmpty_iff, escapeUnreserved_eq_empty_iff,
        decide_eq_true_iff]
    simp only [Assigned.parts, matrixText, hempty]
    by_cases hs : s = "" <;> cases explode <;>
      simp [Operator.expand, Operator.writtenOut, hs, pair, Parts.flat, String.append_assoc]
  | composite content =>
    have htext := Content.matrixText_parts hv name explode
    rw [hname] at htext
    refine String.toList_inj.mp ?_
    rw [Assigned.parts, htext]
    simp only [Operator.expand, Operator.exploded, Operator.pairText_writtenOut]
    cases content <;> cases explode <;>
      simp [Operator.writtenOut, Content.pairs, Content.strings, pair, Function.comp_def]

/-- A path style writes the expansion of its operator with all pairs written out. -/
theorem layout_eq_expand (hop : Operator.ofStyle? account style = some op) {v : Assigned}
    (hv : v.IsDefined) (hname : escapeUnreserved name = name) :
    layout style explode name v.parts = op.writtenOut.expand explode name v := by
  cases style with
  | simple => exact simpleText_eq_expand hop name v
  | label => exact labelText_eq_expand hop name v
  | matrix => exact matrixText_eq_expand hop hv hname
  | _ => cases hop

/-! ## Encoding -/

/-- The members collected from what is given are its escaped ones, in the shape of the value. -/
theorem collect_assigned (v : Assigned) :
    Parts.collect escapeUnreserved (.ofValue v.value) v.value = .ok v.parts := by
  cases v with
  | text s => rfl
  | composite content =>
    have hshape : Shape.ofValue content.value = content.shape := by
      cases content <;> rfl
    rw [Assigned.value, hshape]
    exact collect_value content

/-- A path style is never refused. -/
theorem Encoding.encode_assigned {e : Encoding} (hlocation : e.location = .path)
    (hreserved : e.allowReserved = false)
    (hop : Operator.ofStyle? account e.resolvedStyle = some op) (name : String) (v : Assigned) :
    e.encode (.ofValue v.value) name v.value = .ok {
      location := .path
      text := layout e.resolvedStyle e.resolvedExplode (escapeUnreserved name) v.parts } := by
  have hcheck : e.check = .ok () ∧ e.resolvedStyle ≠ .deepObject ∧ e.resolvedStyle ≠ .cookie := by
    rw [check, hlocation]
    cases hstyle : e.resolvedStyle <;> rw [hstyle] at hop <;>
      first | cases hop; done | exact ⟨by cases e.resolvedExplode <;> rfl, nofun, nofun⟩
  obtain ⟨hcheck, hdeep, hcookie⟩ := hcheck
  have hescaping : Escaping.of e.location e.resolvedStyle e.allowReserved = .allButUnreserved := by
    simp [Escaping.of, hlocation, hcookie, hreserved]
  have htext : e.textOf (.ofValue v.value) name v.value =
      .ok (layout e.resolvedStyle e.resolvedExplode (escapeUnreserved name) v.parts) := by
    rw [textOf, hcheck, hescaping]
    simp only [bind, Except.bind, hlocation, reduceCtorEq, if_false, hdeep, false_and,
      Escaping.apply, collect_assigned]
    rfl
  rw [encode, htext, hlocation]

/-- A path parameter whose name has unreserved characters only is written as the expansion of its
template with all exploded pairs written out. That is the expansion itself, by either account,
except where an exploded pair should be its name alone. -/
theorem Encoding.encode_eq_expand_iff {e : Encoding} (hlocation : e.location = .path)
    (hreserved : e.allowReserved = false)
    (hop : Operator.ofStyle? account e.resolvedStyle = some op)
    (hname : ∀ c ∈ name.toList, isUnreserved c = true) {v : Assigned} (hv : v.IsDefined) :
    e.encode (.ofValue v.value) name v.value = .ok {
      location := .path
      text := op.writtenOut.expand e.resolvedExplode name v } ∧
    (e.encode (.ofValue v.value) name v.value = .ok {
      location := .path
      text := op.expand e.resolvedExplode name v } ↔
        ¬(e.resolvedExplode = true ∧ op.HasBare v)) := by
  have hself := escapeUnreserved_eq_self hname
  have hencode := encode_assigned hlocation hreserved hop name v
  rw [hself, layout_eq_expand hop hv hself] at hencode
  refine ⟨hencode, ?_⟩
  rw [hencode, ← op.expand_writtenOut_eq_iff e.resolvedExplode name]
  simp

/-- Pairs with values and empty items without names are written as the template says, empty items
with names are not. -/
theorem Encoding.encode_eq_expand_items :
    let label : Encoding := { location := .path, style := some .label, explode := some true }
    let matrix : Encoding := { label with style := some .matrix }
    let items : Assigned := .composite (.list ["a b", ""])
    label.encode .array "id" items.value = .ok { location := .path, text := ".a%20b." } ∧
      matrix.encode .array "id" items.value ≠ .ok {
        location := .path
        text := ";id=a%20b;id" } := by
  intro label matrix items
  have hname : ∀ c ∈ "id".toList, isUnreserved c = true := List.all_eq_true.mp (by decide)
  have hdot : Operator.ofStyle? .rules label.resolvedStyle = some _ := rfl
  have hsemicolon : Operator.ofStyle? .rules matrix.resolvedStyle = some _ := rfl
  have hlabel := (Encoding.encode_eq_expand_iff rfl rfl hdot hname (v := items) rfl).2
  have hmatrix := (Encoding.encode_eq_expand_iff rfl rfl hsemicolon hname (v := items) rfl).2
  exact ⟨hlabel.mpr (by decide), mt hmatrix.mp (by decide)⟩

/-- A template of path style has `;id` for an empty item, where `;id=` is written. -/
theorem not_encode_eq_expand : ¬ ∃ account, ∀ (e : Encoding) (op : Operator) (name : String)
    (v : Assigned), e.location = .path → e.allowReserved = false →
    Operator.ofStyle? account e.resolvedStyle = some op →
    (∀ c ∈ name.toList, isUnreserved c = true) → v.IsDefined →
    e.encode (.ofValue v.value) name v.value = .ok {
      location := .path
      text := op.expand e.resolvedExplode name v } := by
  rintro ⟨account, h⟩
  have hempty := h { location := .path, style := some .matrix, explode := some true } _ "id"
    (.composite (.list [""])) rfl rfl rfl (List.all_eq_true.mp (by decide)) rfl
  have hwritten : (Encoding.encode
      { location := .path, style := some .matrix, explode := some true } .array "id"
      (.array [.string ""])).toOption = some { location := .path, text := ";id=" } := by
    decide +kernel
  rw [show Encoding.encode _ .array "id" (.array [.string ""]) = _ from hempty] at hwritten
  exact absurd hwritten (by decide)

end OpenApi.Parameter
