import OpenApi.PathItem.Merged
import OpenApi.Proofs.OrderedMap
import OpenApi.Proofs.PathItem.Chain
import OpenApi.Proofs.Result

/-!
# What the path items of a chain contribute

A path item is resolved through a lookup that may act: each answer may depend on what was asked
before. `Follows` says which chain is followed and what it does to the state of the lookup, and
`Merged.Gathers` what every field of the merged path item is in terms of the path items of the
chain, in order: operations from the end, texts and lists from the first path item that has them,
extensions from all, and the parameters with the document of the one that gave them.

* `Follows.unique`: following references leads through one chain;
* `Merged.gathers_ofChain`: merging gathers along every chain that ends without a reference;
* `resolve_gathers`: a path item that is resolved is gathered along the chain that was followed.
-/

namespace OpenApi.PathItem

variable {σ : Type} {lookup : Option (Lookup (StateM σ))} {s s' : σ} {here : Located} {c : Chain}

/-! ## Chains through a lookup that acts -/

/-- A reference leads to a path item of the document in which it stands, or the document has none
and the lookup answers for the document that the reference names. -/
inductive Step (lookup : Option (Lookup (StateM σ))) (s : σ) (here : Located) :
    Located → σ → Prop
  | inside {t : Target} {item : PathItem} : here.target? = some t → t.isLocal = true →
    here.origin.components.pathItems.get? t.key = some item →
    Step lookup s here { item, origin := here.origin } s
  | outside {t : Target} {ask : Lookup (StateM σ)} {document : String} {found : External} {s' : σ} :
    here.target? = some t →
    (t.isLocal = true → here.origin.components.pathItems.get? t.key = none) →
    t.document = some document → lookup = some ask →
    (ask document t.key).run s = (some found, s') →
    Step lookup s here
      { item := found.item
        origin :=
          { components := found.components.getD {}, self := found.self.or (some document) } }
      s'

/-- Following references leads through a chain to a path item without one. -/
inductive Follows (lookup : Option (Lookup (StateM σ))) : σ → Located → Chain → σ → Prop
  | written {s : σ} {here : Located} : here.item.reference = none →
    Follows lookup s here { referrers := [], target := here } s
  | followed {s s₁ s₂ : σ} {here next : Located} {c : Chain} : Step lookup s here next s₁ →
    Follows lookup s₁ next c s₂ → Follows lookup s here (c.cons here) s₂

/-- A reference leads to one path item. -/
theorem Step.unique {next next' : Located} {s₁ s₂ : σ} (h : Step lookup s here next s₁)
    (h' : Step lookup s here next' s₂) : next = next' ∧ s₁ = s₂ := by
  cases h with
  | inside ht hl hi =>
    cases h' with
    | inside ht' _ hi' =>
      cases ht.symm.trans ht'
      cases hi.symm.trans hi'
      exact ⟨rfl, rfl⟩
    | outside ht' hmissing =>
      cases ht.symm.trans ht'
      cases hi.symm.trans (hmissing hl)
  | outside ht hmissing hd hask hfound =>
    cases h' with
    | inside ht' hl hi =>
      cases ht.symm.trans ht'
      cases hi.symm.trans (hmissing hl)
    | outside ht' _ hd' hask' hfound' =>
      cases ht.symm.trans ht'
      cases hd.symm.trans hd'
      cases hask.symm.trans hask'
      cases hfound.symm.trans hfound'
      exact ⟨rfl, rfl⟩

theorem Step.reference_ne_none {next : Located} (h : Step lookup s here next s') :
    here.item.reference ≠ none := by
  intro hr
  cases h with
  | inside ht => rw [Located.target?, hr] at ht; cases ht
  | outside ht => rw [Located.target?, hr] at ht; cases ht

/-- Following references leads through one chain. -/
theorem Follows.unique {c' : Chain} {s₁ s₂ : σ} (h : Follows lookup s here c s₁)
    (h' : Follows lookup s here c' s₂) : c = c' ∧ s₁ = s₂ := by
  induction h generalizing c' s₂ with
  | written hr =>
    cases h' with
    | written => exact ⟨rfl, rfl⟩
    | followed hstep => exact absurd hr hstep.reference_ne_none
  | followed hstep _ ih =>
    cases h' with
    | written hr => exact absurd hr hstep.reference_ne_none
    | followed hstep' hc' =>
      obtain ⟨rfl, rfl⟩ := hstep.unique hstep'
      obtain ⟨rfl, rfl⟩ := ih hc'
      exact ⟨rfl, rfl⟩

/-- A step whose answer is changed gives something if it gave something before. -/
theorem run_map_eq_some {α β : Type} {x : StateM σ (Option α)} {f : α → β} {b : β}
    (h : (do return (← x).map f : StateM σ (Option β)).run s = (some b, s')) :
    ∃ a, x.run s = (some a, s') ∧ f a = b := by
  rw [StateT.run_bind] at h
  rcases hx : x.run s with ⟨_ | a, s₁⟩ <;> rw [hx] at h <;> cases h
  exact ⟨a, rfl, rfl⟩

theorem step_of_find? {t : Target} {next : Located} (ht : here.target? = some t)
    (h : (t.find? lookup here.origin).run s = (some next, s')) : Step lookup s here next s' := by
  unfold Target.find? at h
  split at h
  · rename_i found hlocal
    cases h
    unfold Target.local? at hlocal
    split at hlocal
    · rename_i hl
      obtain ⟨item, hi, rfl⟩ := Option.map_eq_some_iff.mp hlocal
      exact .inside ht hl hi
    · cases hlocal
  · rename_i document ask hlocal hd
    have hmissing : t.isLocal = true → here.origin.components.pathItems.get? t.key = none := by
      intro hl
      rw [Target.local?, if_pos hl] at hlocal
      exact Option.map_eq_none_iff.mp hlocal
    obtain ⟨found, hfound, rfl⟩ := run_map_eq_some h
    exact .outside ht hmissing hd rfl hfound
  · cases h

/-- A chain that is found is one that following leads through. -/
theorem follows_of_followBelow {fuel : Nat} {visited : List (String × String)}
    (h : (followBelow lookup fuel visited here).run s = (some c, s')) :
    Follows lookup s here c s' := by
  induction fuel generalizing visited s here c with
  | zero => cases h
  | succ fuel ih =>
    cases hr : here.item.reference with
    | none =>
      rw [followBelow, hr] at h
      cases h
      exact .written hr
    | some reference =>
      rw [followBelow, hr] at h
      simp only at h
      split at h
      next => cases h
      next t ht =>
        split at h
        next => cases h
        next =>
          have htarget : here.target? = some t := by
            rw [Located.target?, hr, Option.bind_some, ht]
          rw [StateT.run_bind] at h
          rcases hf : (t.find? lookup here.origin).run s with ⟨_ | next, s₁⟩ <;> rw [hf] at h
          · cases h
          · obtain ⟨c', hc, rfl⟩ := run_map_eq_some h
            exact .followed (step_of_find? htarget hf) (ih hc)

/-! ## Merging along a chain -/

@[simp] theorem Chain.items_cons (here : Located) (c : Chain) :
    (c.cons here).items = here :: c.items := rfl

/-- The first path item of a chain that has parameters. -/
def Chain.parameterGiver? (c : Chain) : Option Located :=
  c.items.find? fun x => !x.item.parameters.isEmpty

/-- The first path item of a chain that has servers. -/
def Chain.serverGiver? (c : Chain) : Option Located :=
  c.items.find? fun x => !x.item.servers.isEmpty

namespace Merged

/-- A merged path item has the operations of the end of a chain, the first summary and description,
the first parameters and servers, and the extensions of all, the first of each name; its document
is that of the end, and its parameters are resolved in the document of the path item that gave
them. -/
structure Gathers (c : Chain) (r : Merged) : Prop where
  reference : r.item.reference = none
  fixed : r.item.fixed = c.target.item.fixed
  additional : r.item.additional = c.target.item.additional
  summary : r.item.summary = c.items.findSome? (·.item.summary)
  description : r.item.description = c.items.findSome? (·.item.description)
  parameters : r.item.parameters = ((c.parameterGiver?).map (·.item.parameters)).getD []
  servers : r.item.servers = ((c.serverGiver?).map (·.item.servers)).getD []
  extensions : ∀ name, r.item.extensions.get? name =
    c.items.findSome? fun x => x.item.extensions.get? name
  origin : r.origin = c.target.origin
  parametersOrigin : r.parametersOrigin = (c.parameterGiver?.getD c.target).origin

/-- The list of the first element with one, with an element in front. -/
theorem firstNonempty_find? {α β : Type} (f : α → List β) (a : α) (l : List α) :
    firstNonempty (f a) (((l.find? fun x => !(f x).isEmpty).map f).getD []) =
      ((((a :: l).find? fun x => !(f x).isEmpty)).map f).getD [] := by
  rw [firstNonempty, List.find?_cons]
  cases (f a).isEmpty <;> rfl

theorem firstNonempty_nil {α : Type} (l : List α) : firstNonempty l [] = l := by
  cases l <;> rfl

/-- A path item without reference is merged with nothing. -/
theorem gathers_ofTarget (h : here.item.reference = none) :
    (ofTarget here).Gathers { referrers := [], target := here } where
  reference := h
  fixed := rfl
  additional := rfl
  summary := by simp [Chain.items, ofTarget]
  description := by simp [Chain.items, ofTarget]
  parameters := by
    have hfirst := firstNonempty_find? (fun x : Located => x.item.parameters) here []
    exact (firstNonempty_nil _).symm.trans hfirst
  servers := by
    have hfirst := firstNonempty_find? (fun x : Located => x.item.servers) here []
    exact (firstNonempty_nil _).symm.trans hfirst
  extensions := by simp [Chain.items, ofTarget]
  origin := rfl
  parametersOrigin := by
    rw [Chain.parameterGiver?, Chain.items, List.nil_append, List.find?_cons]
    cases here.item.parameters.isEmpty <;> rfl

/-- A referrer in front of a chain comes first. -/
theorem Gathers.override {r : Merged} (h : r.Gathers c) (referrer : Located) :
    (r.override referrer).Gathers (c.cons referrer) where
  reference := rfl
  fixed := h.fixed
  additional := h.additional
  summary := by
    rw [Chain.items_cons, findSome?_cons_eq_or, ← h.summary]
    rfl
  description := by
    rw [Chain.items_cons, findSome?_cons_eq_or, ← h.description]
    rfl
  parameters := by
    rw [Chain.parameterGiver?, Chain.items_cons, ← firstNonempty_find?]
    exact congrArg (firstNonempty referrer.item.parameters) h.parameters
  servers := by
    rw [Chain.serverGiver?, Chain.items_cons, ← firstNonempty_find?]
    exact congrArg (firstNonempty referrer.item.servers) h.servers
  extensions name := by
    have hget : (r.override referrer).item.extensions.get? name =
        (referrer.item.extensions.get? name).or (r.item.extensions.get? name) := by
      show (r.item.extensions.insertAll referrer.item.extensions.entries).get? name = _
      rw [OrderedMap.get?_insertAll, Entries.get?_reverse name referrer.item.extensions.nodup]
      rfl
    rw [hget, Chain.items_cons, findSome?_cons_eq_or, h.extensions]
  origin := h.origin
  parametersOrigin := by
    have hset : (r.override referrer).parametersOrigin =
        if referrer.item.parameters.isEmpty then r.parametersOrigin else referrer.origin := by
      show (if referrer.item.parameters.isEmpty then r.parameterOrigin
        else some referrer.origin).getD r.origin = _
      split <;> rfl
    rw [hset, h.parametersOrigin, Chain.parameterGiver?, Chain.parameterGiver?, Chain.items_cons,
      List.find?_cons]
    cases referrer.item.parameters.isEmpty <;> rfl

/-- Merging gathers along every chain that ends at a path item without reference. -/
theorem gathers_ofChain (h : c.target.item.reference = none) : (ofChain c).Gathers c := by
  obtain ⟨referrers, target⟩ := c
  induction referrers with
  | nil => exact gathers_ofTarget h
  | cons referrer referrers ih => exact (ih h).override referrer

end Merged

/-! ## Resolution -/

theorem Follows.reference_target (h : Follows lookup s here c s') :
    c.target.item.reference = none := by
  induction h with
  | written hr => exact hr
  | followed _ _ ih => exact ih

/-- A path item that is resolved, through whatever lookup, is gathered along the one chain of
references that was followed from it. -/
theorem resolve_gathers {ctx : Context (StateM σ)} {item : PathItem} {r : Merged}
    (h : (resolve ctx item).run s = (some r, s')) :
    (∃ c, Follows ctx.lookup s { item, origin := ctx.origin } c s') ∧
      ∀ c s₁, Follows ctx.lookup s { item, origin := ctx.origin } c s₁ → s₁ = s' ∧ r.Gathers c := by
  obtain ⟨c, hc, rfl⟩ := run_map_eq_some h
  have hf := follows_of_followBelow hc
  refine ⟨⟨c, hf⟩, fun c' s₁ hf' => ?_⟩
  obtain ⟨rfl, rfl⟩ := hf.unique hf'
  exact ⟨rfl, Merged.gathers_ofChain hf.reference_target⟩

/-- A document whose path item is the end of a chain that left it. -/
def leftDocument : Origin where
  self := some "http://a/x"
  components := { pathItems := .ofList [
    ("End", { summary := some "End", description := some "End", extensions := .ofList [
      ("x-a", .string "End"), ("x-b", .string "End")] })] }

/-- A path item of another document that refers back and has parameters. -/
def visitedItem : PathItem where
  reference := some "x#/components/pathItems/End"
  summary := some "Visited"
  parameters := [.inline { name := "id", location := .path }]
  extensions := .ofList [("x-a", .string "Visited")]

/-- A lookup that knows both documents and counts the questions. -/
def countingLookup : Lookup (StateM Nat) := fun document key => do
  modify (· + 1)
  if document = "http://a/y" then
    return some { item := visitedItem }
  else
    return (leftDocument.components.pathItems.get? key).map fun item =>
      { item, components := some leftDocument.components }

/-- The context of a chain that leaves its document and comes back to it from outside. -/
def leavingContext : Context (StateM Nat) where
  origin := leftDocument
  lookup := some countingLookup
  limit := 5

/-- A path item that refers to the other document and gives a description. -/
def leavingItem : PathItem where
  reference := some "y#/components/pathItems/Visited"
  description := some "Leaving"

/-- The parameters of a path item in the middle are resolved in its document. -/
theorem resolve_gathers_leaving : ∃ r, (resolve leavingContext leavingItem).run 0 = (some r, 2) ∧
    (∃ c, Follows leavingContext.lookup 0 { item := leavingItem, origin := leftDocument } c 2 ∧
      r.Gathers c) ∧
    r.item.summary = some "Visited" ∧ r.parametersOrigin.self = some "http://a/y" := by
  have hcount : ((resolve leavingContext leavingItem).run 0).2 = 2 := by decide +kernel
  have hitem : ((resolve leavingContext leavingItem).run 0).1.map
      (fun r => (r.item.summary, r.parametersOrigin.self)) =
        some (some "Visited", some "http://a/y") := by
    decide +kernel
  obtain ⟨r, hr, hfields⟩ := Option.map_eq_some_iff.mp hitem
  have hrun : (resolve leavingContext leavingItem).run 0 = (some r, 2) := Prod.ext hr hcount
  obtain ⟨⟨c, hc⟩, hgathers⟩ := resolve_gathers hrun
  exact ⟨r, hrun, ⟨c, hc, (hgathers c 2 hc).2⟩, congrArg Prod.fst hfields,
    congrArg Prod.snd hfields⟩

end OpenApi.PathItem
