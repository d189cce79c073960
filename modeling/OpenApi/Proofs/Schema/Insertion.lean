import OpenApi.Proofs.Schema.DynamicScope

/-!
# Insertions that succeed or fail

A call that fails leaves the nodes that were pushed before the fault, so a graph may hold trees that
no top-level schema reaches. It is a forest all the same.

* `preserves_load`, `keepsForest_load`: loading a value keeps what pushing a node keeps, and it keeps
  the forest, whether it succeeds or fails;
* `Graph.forest_after`: calls on an empty graph build a forest;
* `Graph.resources_after`: subschemas, parents and resources in such a graph, seen from above and
  from below.
-/

namespace OpenApi.Schema

open Json

variable {g g' : Graph} {id : NodeId} {P : Graph → Prop}

/-! ## Loading that may fail -/

namespace Load

variable {α β : Type}

/-- A step keeps a property of the graph, also where it fails. -/
def Preserves (x : Load α) (P : Graph → Prop) : Prop := ∀ g, P g → P (x.result g).2

namespace Preserves

theorem pure (a : α) : (Pure.pure a : Load α).Preserves P := fun _ hg => hg

theorem bind {x : Load α} {f : α → Load β} (hx : x.Preserves P) (hf : ∀ a, (f a).Preserves P) :
    (x >>= f).Preserves P := by
  intro g hg
  have hfirst := hx g hg
  rw [result_bind]
  rcases hr : x.result g with ⟨e | a, g₁⟩ <;> rw [hr] at hfirst
  · exact hfirst
  · exact hf a g₁ hfirst

theorem map {x : Load α} (f : α → β) (hx : x.Preserves P) : (f <$> x).Preserves P := by
  rw [map_eq_pure_bind]
  exact hx.bind fun a => .pure (f a)

end Preserves

end Load

theorem preserves_loadItems {values : List Value}
    (h : ∀ v ∈ values, ∀ pointer, (load pointer v).Preserves P) (pointer : String) (index : Nat) :
    (loadItems pointer index values).Preserves P := by
  induction values generalizing index with
  | nil =>
    rw [loadItems]
    exact .pure []
  | cons v vs ih =>
    rw [List.forall_mem_cons] at h
    rw [loadItems]
    exact (h.1 _).bind fun id => (ih h.2 _).bind fun ids => .pure (id :: ids)

theorem preserves_loadEntries {entries : List (String × Value)}
    (h : ∀ v ∈ entries.map Prod.snd, ∀ pointer, (load pointer v).Preserves P) (pointer : String) :
    (loadEntries pointer entries).Preserves P := by
  induction entries with
  | nil =>
    rw [loadEntries]
    exact .pure []
  | cons entry rest ih =>
    obtain ⟨key, v⟩ := entry
    rw [List.map_cons, List.forall_mem_cons] at h
    rw [loadEntries]
    exact (h.1 _).bind fun id => (ih h.2).bind fun ids => .pure ((key, id) :: ids)

theorem preserves_loadBelow {b : Below Value}
    (h : ∀ v ∈ b.items, ∀ pointer, (load pointer v).Preserves P) (pointer : String) :
    (loadBelow pointer b).Preserves P := by
  cases b with
  | nothing => exact .pure Below.nothing
  | one v => exact (h v List.mem_cons_self pointer).map Below.one
  | list values => exact (preserves_loadItems h pointer 0).map Below.list
  | map entries => exact (preserves_loadEntries h pointer).map Below.map

theorem preserves_loadMembers {members : List (String × Value)}
    (h : ∀ m ∈ members, ∀ v ∈ (subvalues m.1 m.2).items, ∀ pointer, (load pointer v).Preserves P)
    (pointer : String) (d : Draft) : (loadMembers pointer d members).Preserves P := by
  induction members generalizing d with
  | nil =>
    rw [loadMembers]
    exact .pure d
  | cons member rest ih =>
    obtain ⟨key, v⟩ := member
    rw [List.forall_mem_cons] at h
    rw [loadMembers_cons]
    exact (preserves_loadBelow h.1 _).bind fun ids => ih h.2 _

theorem preserves_loadAdditionalItems {members : List (String × Value)} {d : Draft}
    (h : ∀ v ∈ d.additionalItems members, ∀ pointer, (load pointer v).Preserves P)
    (pointer : String) : (loadAdditionalItems pointer d members).Preserves P := by
  rw [loadAdditionalItems_eq]
  rw [Draft.additionalItems] at h
  split
  · rename_i v hv
    rw [hv] at h
    exact (preserves_loadBelow h _).bind fun ids => .pure _
  · exact .pure d

/-- The members of a schema with all subschemas loaded. -/
def readDraft (pointer : String) (members : List (String × Value)) : Load Draft := do
  let draft ← loadMembers pointer {} members
  loadAdditionalItems pointer draft members

/-- The node of an object is pushed last; that step never fails. -/
theorem load_object (pointer : String) (members : List (String × Value)) :
    load pointer (.object members) = readDraft pointer members >>= fun draft =>
      pushNode (draft.finishNullable
        (Entries.get? "nullable" members).isSome).withInferredTypes := by
  rw [load, readDraft, bind_assoc]

/-- What loading the values below an object keeps, reading the object keeps. -/
theorem preserves_readDraft {members : List (String × Value)}
    (h : ∀ v, sizeOf v < sizeOf (Value.object members) → ∀ pointer, (load pointer v).Preserves P)
    (pointer : String) : (readDraft pointer members).Preserves P := by
  refine (preserves_loadMembers (fun m hm v hv => h v ?_) pointer {}).bind fun d =>
    preserves_loadAdditionalItems (fun v hv => h v ?_) pointer
  · exact Nat.lt_of_le_of_lt (sizeOf_le_of_mem_subvalues hv) (sizeOf_lt_object hm)
  · exact sizeOf_lt_object (Draft.mem_additionalItems hv).1

/-- Loading keeps what pushing a node keeps. -/
theorem preserves_load (hpush : ∀ g node, P g → P (g.push node).2) (value : Value)
    (pointer : String) : (load pointer value).Preserves P := by
  induction hn : sizeOf value using Nat.strongRecOn generalizing value pointer with
  | ind n ih =>
    subst hn
    have hnode : ∀ node, (pushNode node).Preserves P := fun node g hg => hpush g node hg
    cases value with
    | object members =>
      rw [load_object]
      exact (preserves_readDraft (fun v hv pointer => ih _ hv v pointer rfl) pointer).bind
        fun draft => hnode _
    | bool b =>
      rw [load]
      exact hnode _
    | _ =>
      simp only [load]
      exact fun _ hg => hg

/-- A load leaves the top-level schemas and their names, whether it succeeds or fails. -/
theorem roots_load (g : Graph) (value : Value) (pointer : String) :
    ((load pointer value).result g).2.roots = g.roots ∧
      ((load pointer value).result g).2.named = g.named :=
  preserves_load (P := fun g' => g'.roots = g.roots ∧ g'.named = g.named)
    (fun _ _ hg => hg) value pointer g ⟨rfl, rfl⟩

/-- Loading keeps the forest: what a fault leaves behind are whole trees. -/
theorem keepsForest_load {g₀ : Graph} (value : Value) (pointer : String) :
    (load pointer value).Preserves fun g => g₀.Grows g ∧ g.Forest := by
  induction hn : sizeOf value using Nat.strongRecOn generalizing value pointer with
  | ind n ih =>
    subst hn
    rintro g ⟨hgrows, hforest⟩
    rcases hr : (load pointer value).result g with ⟨e | id, g'⟩
    · cases value with
      | object members =>
        have hdraft := preserves_readDraft (fun v hv pointer => ih _ hv v pointer rfl) pointer g
          ⟨hgrows, hforest⟩
        rw [load_object, Load.result_bind] at hr
        rcases hd : (readDraft pointer members).result g with ⟨e | d, g₁⟩ <;> rw [hd] at hr hdraft
        · cases hr
          exact hdraft
        · cases hr
      | bool b =>
        rw [load] at hr
        cases hr
      | _ =>
        simp only [load] at hr
        cases hr
        exact ⟨hgrows, hforest⟩
    · have he := Loads.extends ⟨pointer, hr⟩ hforest
      exact ⟨hgrows.trans he.grows, he.forest⟩

/-! ## Histories of calls -/

/-- A call that loads a further top-level schema, without or with a name. -/
inductive Insertion where
  | unnamed (value : Value)
  | named (name : String) (value : Value)

/-- Makes a call. -/
def Insertion.run (g : Graph) : Insertion → Except LoadFault NodeId × Graph
  | .unnamed value => g.insert value
  | .named name value => g.insertNamed name value

namespace Insertion

/-- The value that a call loads. -/
def value : Insertion → Value
  | .unnamed value => value
  | .named _ value => value

/-- The pointer under which a call loads its value. -/
def pointer : Insertion → String
  | .unnamed _ => "#"
  | .named name _ => Graph.componentPointer name

/-- What a call registers of its loaded value. -/
def register (g : Graph) (id : NodeId) : Insertion → Graph
  | .unnamed _ => g.addRoot id
  | .named name _ => g.nameRoot name id

variable (call : Insertion)

/-- A call loads its value, and what succeeded becomes a top-level schema. -/
theorem run_eq (g : Graph) : call.run g =
    match (load call.pointer call.value).result g with
    | (.ok id, g') => (.ok id, call.register g' id)
    | (.error e, g') => (.error e, g') := by
  cases call <;> rfl

theorem nodes_register (g : Graph) (id : NodeId) : (call.register g id).nodes = g.nodes := by
  cases call <;> exact Graph.nodes_addRoot g id

theorem parents_register (g : Graph) (id : NodeId) : (call.register g id).parents = g.parents := by
  cases call <;> exact Graph.parents_addRoot g id

theorem root?_register_ne_none (g : Graph) (id : NodeId) : (call.register g id).root? ≠ none := by
  cases call <;> exact Graph.root?_addRoot_ne_none g id

/-- The nodes that a call pushes are those of the load. -/
theorem nodes_run (g : Graph) :
    (call.run g).1 = ((load call.pointer call.value).result g).1 ∧
      (call.run g).2.nodes = ((load call.pointer call.value).result g).2.nodes ∧
      (call.run g).2.parents = ((load call.pointer call.value).result g).2.parents := by
  rw [run_eq]
  rcases (load call.pointer call.value).result g with ⟨e | id, g'⟩
  · exact ⟨rfl, rfl, rfl⟩
  · exact ⟨rfl, call.nodes_register g' id, call.parents_register g' id⟩

end Insertion

namespace Graph

/-- The graph that calls leave of an empty one. A call that fails adds no top-level schema, and the
next one starts from what it left. -/
def after (calls : List Insertion) : Graph := calls.foldl (fun g call => (call.run g).2) {}

/-- One call keeps a forest. -/
theorem Forest.run (hg : g.Forest) (call : Insertion) : (call.run g).2.Forest := by
  obtain ⟨-, hnodes, hparents⟩ := call.nodes_run g
  exact (keepsForest_load call.value call.pointer g ⟨.refl g, hg⟩).2.congr hnodes hparents

/-- A call that succeeds gives the greatest number of the nodes that it adds. -/
theorem Forest.size_of_run_eq_ok (hg : g.Forest) {call : Insertion}
    (h : call.run g = (.ok id, g')) : g.size ≤ id ∧ g'.size = id + 1 := by
  obtain ⟨hid, hnodes, -⟩ := call.nodes_run g
  rw [h] at hid hnodes
  have hl : Loads g call.value id ((load call.pointer call.value).result g).2 :=
    ⟨call.pointer, Prod.ext hid.symm rfl⟩
  have he := hl.extends hg
  exact ⟨he.new, (congrArg Array.size hnodes).trans he.size⟩

theorem forest_after (calls : List Insertion) : (after calls).Forest := by
  suffices ∀ g : Graph, g.Forest → (calls.foldl (fun g call => (call.run g).2) g).Forest from
    this {} .empty
  induction calls with
  | nil => exact fun g hg => hg
  | cons call calls ih => exact fun g hg => ih _ (hg.run call)

/-! ## Resources -/

/-- A node that is the nearest from another upwards, itself included, with an `$id` that is not
blank, or the topmost one if there is none. -/
structure Nearest (g : Graph) (n r : NodeId) : Prop where
  reaches : g.Reaches r n
  opens : g.opensResource r = true ∨
    g.parent? r = none ∧ ∀ a, g.Reaches a n → g.opensResource a = false
  below : ∀ a, g.Reaches a n → g.opensResource a = true → g.Reaches a r

theorem Forest.nearest_resourceRoot (hf : g.Forest) (n : NodeId) :
    g.Nearest n (g.resourceRoot n) := by
  have below : ∀ a, g.Reaches a n → g.opensResource a = true → g.Reaches a (g.resourceRoot n) :=
    fun a ha hopen => hf.reaches_resourceRoot_of_opens hopen ha
  refine ⟨hf.reaches_resourceRoot n, ?_, below⟩
  have howner := hf.opens_of_mem_owners (List.mem_of_getLast? (hf.getLast?_owners n))
  cases hopen : g.opensResource (g.resourceRoot n) with
  | true => exact .inl rfl
  | false =>
    have htop : g.parent? (g.resourceRoot n) = none := howner.resolve_left (by simp [hopen])
    refine .inr ⟨htop, fun a ha => ?_⟩
    by_contra ha'
    rw [Bool.not_eq_false] at ha'
    rw [(below a ha ha').eq_of_parent? hf htop, hopen] at ha'
    cases ha'

/-- The nodes collected downwards for a resource are those below its owner whose resource root it
is. -/
theorem Forest.mem_resourceNodes_iff (hf : g.Forest) {o n : NodeId} (ho : g.resourceRoot o = o)
    (hlt : o < g.size) : n ∈ g.resourceNodes o ↔ g.Reaches o n ∧ g.resourceRoot n = o := by
  rw [hf.resourceNodes_eq ho hlt, hf.filter_preorder (hf.reaches_topmost o), List.mem_filter,
    hf.mem_preorder_iff, beq_iff_eq]

/-- Whatever calls succeeded or failed: a node is a subschema once at most, of its parent and of a
node with a greater number; the next call that succeeds gives the last of its nodes; the resource
root is the nearest above a node, and the nodes collected for a resource are those it is the root
of. -/
theorem resources_after (calls : List Insertion) (hg : after calls = g) :
    (∀ p q c, c ∈ g.subschemas p → c ∈ g.subschemas q → p = q) ∧
    (∀ p, (g.subschemas p).Nodup) ∧
    (∀ p c, g.parent? c = some p ↔ c ∈ g.subschemas p) ∧
    (∀ p c, c ∈ g.subschemas p → c < p) ∧
    (∀ call id g', Insertion.run g call = (.ok id, g') → g.size ≤ id ∧ g'.size = id + 1) ∧
    (∀ n, g.Nearest n (g.resourceRoot n)) ∧
    ∀ o < g.size, g.resourceRoot o = o →
      ∀ n, n ∈ g.resourceNodes o ↔ g.Reaches o n ∧ g.resourceRoot n = o := by
  have hf : g.Forest := hg ▸ forest_after calls
  refine ⟨fun p q c hp hq => ?_, hf.nodup, fun p c => hf.parent?_eq_some_iff, fun p c => hf.lt,
    fun call id g' h => hf.size_of_run_eq_ok h, hf.nearest_resourceRoot,
    fun o hlt ho n => hf.mem_resourceNodes_iff ho hlt⟩
  have hparent := hf.parent?_eq_some_iff.mpr hp
  rw [hf.parent?_eq_some_iff.mpr hq] at hparent
  exact (Option.some.inj hparent).symm

theorem resources_after_fault :
    let g := after [.named "a" (.object [("allOf", .array [.bool true, .null])]),
      .unnamed (.object [("$id", .string "r"),
        ("items", .object [("$id", .string "s"), ("not", .bool true)])])]
    g.size = 4 ∧ g.roots = [3] ∧ g.parent? 0 = none ∧
    (2 ∈ g.subschemas 3 ∧ 2 < 3) ∧
    (∃ id g', Insertion.run g (.unnamed (.bool false)) = (.ok id, g') ∧
      g.size ≤ id ∧ g'.size = id + 1) ∧
    ∀ n, n ∈ g.resourceNodes 2 ↔ g.Reaches 2 n ∧ g.resourceRoot n = 2 := by
  intro g
  have hmem : 2 ∈ g.subschemas 3 := by decide +kernel
  have hrun : Insertion.run g (.unnamed (.bool false)) =
      (.ok 4, (Insertion.run g (.unnamed (.bool false))).2) := rfl
  obtain ⟨-, -, -, hlt, hlast, -, hnodes⟩ := resources_after _ (rfl : _ = g)
  refine ⟨by decide +kernel, by decide +kernel, by decide +kernel, ⟨hmem, hlt 3 2 hmem⟩,
    ⟨4, _, hrun, hlast _ _ _ hrun⟩, ?_⟩
  exact hnodes 2 (by decide +kernel) (by decide +kernel)

end Graph

end OpenApi.Schema
