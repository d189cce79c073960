import OpenApi.Command.Anchors
import OpenApi.Proofs.Pointer
import OpenApi.Proofs.Schema.Lineage
import OpenApi.Proofs.Schema.Reload

/-!
# The node of the command `anchors`

The command takes its pointer for a reference. So a pointer is followed token by token from the top
of the document, but white space at its end does not count, the pointer `/` leads to the top, and
one that leads to no node stands for the first definition with the name of its last token.

* `Schema.Graph.resolve_hash_pointer`: the node that a pointer stands for as a reference;
* `Command.Anchors.answers_node?`: the command answers at that node;
* `Command.Anchors.render_pointer`: so it answers where the pointer leads exactly if it leads to a
  node or no definition has the name of its last token.
-/

namespace OpenApi

open Text

/-! ## Pointers as they are written -/

namespace Reference

variable {pointer : String} {cs : List Char}

/-- The tokens of a pointer: what stands after its slashes, decoded. -/
def pointerTokens (pointer : String) : List String :=
  (pieces '/' pointer).tail.map decodeSegment

/-- The last token of a pointer. -/
def lastToken (pointer : String) : String := (pointerTokens pointer).getLastD ""

theorem pointerTokens_eq (h : pointer.toList = '/' :: cs) : pointerTokens pointer =
    (splitOn '/' cs).map fun piece => decodeSegment (String.ofList piece) := by
  rw [pointerTokens, pieces, h, splitOn, if_pos rfl, List.map_cons, List.tail_cons, List.map_map]
  simp only [Function.comp_def]

theorem toList_trim (h : pointer.toList = '/' :: cs) :
    (trim pointer).toList = '/' :: dropEndWhile isBlank cs := by
  rw [trim, String.toList_ofList, h, trimChars_cons (by decide)]

theorem trim_hash_pointer (h : pointer.toList = '/' :: cs) :
    trim ("#" ++ pointer) = "#" ++ trim pointer := by
  rw [← String.toList_inj, String.toList_append, toList_trim h, trim, String.toList_ofList,
    String.toList_append, h]
  exact trimChars_append [] cs (by decide) (by decide)

/-- The name of a reference that is a pointer is the last token. -/
theorem name_hash_pointer (h : pointer.toList = '/' :: cs) (htrim : trim pointer = pointer) :
    name ("#" ++ pointer) = lastToken pointer := by
  have hlist : ("#" ++ pointer).toList = '#' :: '/' :: cs := by
    rw [String.toList_append, h]
    rfl
  rw [name, trim_hash_pointer h, htrim]
  simp only [hlist]
  rw [lastToken, pointerTokens_eq h, lastPiece, List.getLastD_eq_getLast?, List.getLast?_map]
  cases hlast : (splitOn '/' cs).getLast? with
  | none => exact absurd (List.getLast?_eq_none_iff.mp hlast) (splitOn_ne_nil '/' cs)
  | some piece => rw [Option.map_some, Option.getD_some, Option.getD_some]

end Reference

namespace Schema.Graph

open Reference

variable {g : Graph} {root base : NodeId} {pointer : String} {cs : List Char}

/-- The graph of a value has no components. -/
theorem named_of_ofValue {v : Json.Value} (h : ofValue v = .ok g) : g.named = .empty := by
  rw [ofValue] at h
  split at h
  next root g' hinsert =>
    cases h
    obtain ⟨g₁, hl, rfl⟩ := insert_eq_ok hinsert
    rw [named_addRoot, (hl.extends .empty).grows.named]
  next => cases h

/-- Without components the tokens of a pointer are followed from the resource. -/
theorem followTokens_of_unnamed (hnamed : g.named = .empty) (tokens : List String) :
    g.followTokens base tokens = g.walkPointer base tokens := by
  rw [followTokens.eq_def]
  split
  next name rest =>
    -- No slot has this word, so a walk along it leads nowhere too.
    have hword : Slot.ofWord? "components" = none := by decide
    rw [hnamed, walkPointer, hword]
    cases g.node? base <;> rfl
  next => rfl

theorem resolve_hash_pointer (hnamed : g.named = .empty) (htop : g.resourceRoot root = root)
    (h : pointer.toList = '/' :: cs) : g.resolve (some root) ("#" ++ pointer) =
      if trim pointer = "/" then some root
      else (g.walkPointer root (pointerTokens (trim pointer))).or
        (g.definition? (lastToken (trim pointer))) := by
  have hname : Reference.name ("#" ++ trim pointer) = lastToken (trim pointer) :=
    name_hash_pointer (toList_trim h) (trim_trim pointer)
  have hlocate : g.locate (some root) ("#" ++ trim pointer) =
      g.resolveFragment root (trim pointer) := by
    have hempty : "".isEmpty = true := rfl
    rw [locate, splitFragment_hash]
    simp only [Option.getD_some, Option.map_some, Option.some_or, htop, hempty, if_true,
      Option.bind_some]
  rw [resolve, trim_hash_pointer h]
  simp only [hname, hlocate, hnamed]
  split
  next hroot =>
    have hslash : g.resolveFragment root "/" = some root := rfl
    rw [hroot, hslash, Option.some_or]
  next hroot =>
    have hne : dropEndWhile isBlank cs ≠ [] := by
      intro hnil
      refine hroot (String.toList_inj.mp ?_)
      rw [toList_trim h, hnil]
      rfl
    rw [resolveFragment_slash (toList_trim h) hne, followTokens_of_unnamed hnamed,
      ← pointerTokens_eq (toList_trim h)]
    rfl

end Schema.Graph

/-! ## Answers of the command -/

namespace Command.Anchors

open Schema Reference

variable {c : Anchors} {text : String} {g : Graph} {root : NodeId}

/-- What the command answers where its pointer leads to a node, or to none: the target of the
dynamic reference at the node, or that it has none there; or that there is no such node. -/
inductive Answers (c : Anchors) (g : Graph) (root : NodeId) :
    Option NodeId → Except Fault String → Prop
  | target {node target : NodeId} :
    (DynamicScope.build g root).resolve node c.reference = some target →
    Answers c g root (some node) (.ok (g.toValue target).pretty)
  | unresolved {node : NodeId} : (DynamicScope.build g root).resolve node c.reference = none →
    Answers c g root (some node) (.error (.unresolved c.reference c.pointer))
  | nowhere : Answers c g root none (.error (.noSchemaAt c.pointer))

theorem Answers.not_nowhere {node : NodeId} {result : Except Fault String}
    (h : c.Answers g root (some node) result) : ¬ c.Answers g root none result := by
  cases h <;> rintro ⟨⟩

theorem ofValue_of_graphOf (h : graphOf text = .ok g) : ∃ v, Graph.ofValue v = .ok g := by
  rw [graphOf] at h
  split at h
  next => cases h
  next v _ =>
    refine ⟨v, ?_⟩
    cases hg : Graph.ofValue v with
    | error e =>
      rw [hg] at h
      cases h
    | ok g' =>
      rw [hg] at h
      cases h
      rfl

/-- The command answers at the node that it finds. -/
theorem answers_node? (hg : graphOf text = .ok g) (hroot : g.root? = some root) :
    c.Answers g root (c.node? g root) (c.render text) := by
  rw [render, hg]
  simp only [bind, Except.bind, hroot]
  cases c.node? g root with
  | none => exact .nowhere
  | some node =>
    simp only
    split
    next h => exact .unresolved h
    next target h => exact .target h

/-- Where the command looks for its node: at the top for the pointer `/`, else where the tokens of
the trimmed pointer lead, and if that is nowhere, at the first definition with the name of the
last. -/
theorem node?_eq (hnamed : g.named = .empty) (htop : g.resourceRoot root = root)
    (hp : c.pointer.toList.head? = some '/') : c.node? g root =
      if trim c.pointer = "/" then some root
      else (g.walkPointer root (pointerTokens (trim c.pointer))).or
        (g.definition? (lastToken (trim c.pointer))) := by
  obtain ⟨cs, hcs⟩ := List.head?_eq_some_iff.mp hp
  have hne : c.pointer.isEmpty = false := by
    rw [← Bool.not_eq_true, String.isEmpty_iff, ← String.toList_eq_nil_iff, hcs]
    exact List.cons_ne_nil _ _
  rw [node?, hne, if_neg Bool.false_ne_true]
  exact Graph.resolve_hash_pointer hnamed htop hcs

/-- A pointer is followed from the top of the document. Where it leads to no node, the command does
not say so if a definition has the name of the last token, but answers at that. -/
theorem render_pointer (hg : graphOf text = .ok g) (hp : c.pointer.toList.head? = some '/') :
    ∃ root, g.root? = some root ∧
      (trim c.pointer = "/" → c.Answers g root (some root) (c.render text)) ∧
      (trim c.pointer ≠ "/" → c.Answers g root
        ((g.walkPointer root (pointerTokens (trim c.pointer))).or
          (g.definition? (lastToken (trim c.pointer)))) (c.render text)) ∧
      (trim c.pointer = c.pointer → c.pointer ≠ "/" →
        (c.Answers g root (g.walkPointer root (pointerTokens c.pointer)) (c.render text) ↔
          g.walkPointer root (pointerTokens c.pointer) ≠ none ∨
            g.definition? (lastToken c.pointer) = none)) := by
  obtain ⟨v, hv⟩ := ofValue_of_graphOf hg
  obtain ⟨root, g₁, hroot, hrooted, -, -⟩ := Graph.loads_of_ofValue hv
  have htop : g.resourceRoot root = root :=
    hrooted.forest.resourceRoot_of_opens (.inr (hrooted.roots root (List.mem_of_head? hroot)).2)
  have hanswers : c.Answers g root (c.node? g root) (c.render text) := answers_node? hg hroot
  rw [node?_eq (Graph.named_of_ofValue hv) htop hp] at hanswers
  refine ⟨root, hroot, fun hslash => ?_, fun hslash => ?_, fun htrim hslash => ?_⟩
  · rwa [if_pos hslash] at hanswers
  · rwa [if_neg hslash] at hanswers
  · rw [htrim, if_neg hslash] at hanswers
    cases hwalk : g.walkPointer root (pointerTokens c.pointer) with
    | some node =>
      rw [hwalk] at hanswers
      simpa using hanswers
    | none =>
      rw [hwalk, Option.none_or] at hanswers
      cases hdefinition : g.definition? (lastToken c.pointer) with
      | none => simpa [hdefinition] using hanswers
      | some node =>
        rw [hdefinition] at hanswers
        simpa using hanswers.not_nowhere

/-- A schema with a definition. -/
def definitionText : String := "$dynamicAnchor: top\n$defs:\n  a:\n    $dynamicAnchor: inner\n"

theorem graphOf_definitionText : ∃ g, graphOf definitionText = .ok g :=
  exists_of_isOk (by decide +kernel)

theorem render_pointer_definition : ∃ g, graphOf definitionText = .ok g ∧
    "/$defs/a".toList.head? = some '/' ∧ ∃ root, g.root? = some root ∧
      g.walkPointer root (pointerTokens "/$defs/a") = some 0 ∧
      Answers ⟨"s.yaml", "/$defs/a", "#top"⟩ g root (some 0)
        (render ⟨"s.yaml", "/$defs/a", "#top"⟩ definitionText) := by
  obtain ⟨g, hg⟩ := graphOf_definitionText
  have hslash : "/$defs/a".toList.head? = some '/' := by decide
  obtain ⟨root, hroot, -, -, hanswers⟩ :=
    render_pointer (c := ⟨"s.yaml", "/$defs/a", "#top"⟩) hg hslash
  have hwalk : (graphOf definitionText).toOption.bind (fun g => g.root?.bind fun root =>
      g.walkPointer root (pointerTokens "/$defs/a")) = some 0 := by
    decide +kernel
  rw [hg] at hwalk
  simp only [Except.toOption, Option.bind_some, hroot] at hwalk
  refine ⟨g, hg, hslash, root, hroot, hwalk, ?_⟩
  have hanswers := (hanswers (by decide +kernel) (by decide)).mpr
  simp only [hwalk] at hanswers
  exact hanswers (.inl (Option.some_ne_none 0))

/-- A pointer that leads to no node is not always answered so: a definition may have the name of its
last token. -/
theorem not_render_pointer : ¬ ∀ (c : Anchors) (text : String) (g : Graph) (root : NodeId),
    graphOf text = .ok g → g.root? = some root → c.pointer.toList.head? = some '/' →
      c.Answers g root (g.walkPointer root (pointerTokens c.pointer)) (c.render text) := by
  intro hall
  obtain ⟨g, hg⟩ := graphOf_definitionText
  have hwalk : (graphOf definitionText).toOption.bind (fun g => g.root?.map fun root =>
      g.walkPointer root (pointerTokens "/properties/a")) = some none := by
    decide +kernel
  have hok : (render ⟨"s.yaml", "/properties/a", "#inner"⟩ definitionText).isOk = true := by
    decide +kernel
  rw [hg] at hwalk
  obtain ⟨root, hroot, hwalk⟩ := Option.map_eq_some_iff.mp hwalk
  have hanswers :=
    hall ⟨"s.yaml", "/properties/a", "#inner"⟩ definitionText g root hg hroot (by decide)
  simp only [hwalk] at hanswers
  generalize render ⟨"s.yaml", "/properties/a", "#inner"⟩ definitionText = result at hok hanswers
  cases hanswers
  cases hok

end Command.Anchors

end OpenApi
