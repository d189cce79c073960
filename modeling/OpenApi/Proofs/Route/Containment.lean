import OpenApi.Proofs.Parameter.Refusal
import OpenApi.Proofs.PathItem.Resolver
import OpenApi.Proofs.Route.Parameters

/-!
# Failures that are contained

A listing of a document is refused for its parameters alone.

* `simulates_ofMaps`: under resolvers that answer alike a listing gives the same, routes or fault;
* `refuses_of_ofMerged`: a path item is refused for a list of its parameters (`Refuses`);
* `ofMaps_eq_error`: a listing is refused for the first path item that is resolved and refused;
* `Document.failures_contained`: both, of every document.
-/

namespace OpenApi

open Json Parameter

variable {σ τ : Type} {Q : σ → τ → Prop}

namespace Simulates

variable {ε α β : Type}

theorem liftM {x : StateM σ α} {y : StateM τ α} (h : Simulates Q x y) :
    Simulates Q (liftM x : ExceptT ε (StateM σ) α).run (liftM y : ExceptT ε (StateM τ) α).run := by
  rw [ExceptT.run_liftM, ExceptT.run_liftM, ← bind_pure_comp, ← bind_pure_comp]
  exact h.bind fun a => .pure (Except.ok a)

theorem bindExcept {x : ExceptT ε (StateM σ) α} {y : ExceptT ε (StateM τ) α}
    {f : α → ExceptT ε (StateM σ) β} {g : α → ExceptT ε (StateM τ) β}
    (hx : Simulates Q x.run y.run) (hf : ∀ a, Simulates Q (f a).run (g a).run) :
    Simulates Q (x >>= f).run (y >>= g).run := by
  rw [ExceptT.run_bind, ExceptT.run_bind]
  refine hx.bind fun result => ?_
  cases result with
  | ok a => exact hf a
  | error e => exact .pure (Except.error e)

end Simulates

namespace Route

variable {kind : Kind} {path : String} {security : Option (List Value)}

/-! ## Two listings -/

section

variable {ctx : PathItem.Context (StateM σ)} {ctx' : PathItem.Context (StateM τ)}
  (hctx : ∀ item, Simulates Q (PathItem.resolve ctx item) (PathItem.resolve ctx' item))
include hctx

theorem simulates_ofItems (items : List (String × PathItem)) :
    Simulates Q (ofItems kind security ctx items).run (ofItems kind security ctx' items).run := by
  induction items with
  | nil => exact .pure _
  | cons x items ih =>
    obtain ⟨path, item⟩ := x
    rw [ofItems, ofItems]
    refine (hctx item).liftM.bindExcept fun found => ?_
    cases found with
    | none => exact (Simulates.pure (.ok [])).bindExcept fun _ => ih.bindExcept fun _ => .pure _
    | some container =>
      have hhere : Simulates Q (Pure.pure (ofMerged path kind security container))
        (Pure.pure (ofMerged path kind security container)) := .pure _
      exact hhere.bindExcept fun _ => ih.bindExcept fun _ => .pure _

theorem simulates_ofMaps (paths : PathMap) (webhooks : Option PathMap) :
    Simulates Q (ofMaps paths webhooks security ctx).run
      (ofMaps paths webhooks security ctx').run := by
  rw [ofMaps_eq, ofMaps_eq]
  exact (simulates_ofItems hctx _).bindExcept fun _ =>
    (simulates_ofItems hctx _).bindExcept fun _ => .pure _

end

/-! ## What a path item is refused for -/

/-- What a path item that is resolved may be refused for: its list of parameters, that of one of its
operations, or both together, of which a querystring does not keep the query to itself. -/
inductive Refuses (path : String) (container : PathItem.Merged) : Invalid → Prop
  | common {e : Invalid} : Refused container.parametersOrigin container.item.parameters e →
    Refuses path container e
  | own {method : Method} {o : Operation} {e : Invalid} :
    (method, o) ∈ operationsOf container.item →
    Refused container.origin o.parameters e → Refuses path container e
  | query {method : Method} {o : Operation} {common own : List Resolved} {p : Resolved}
    {fault : Fault} : (method, o) ∈ operationsOf container.item →
    resolveAll container.parametersOrigin container.item.parameters = .ok common →
    resolveAll container.origin o.parameters = .ok own →
    ¬ KeepsQuery (merge common own) → p ∈ merge common own → p.location = .querystring →
    checkQuery path method (merge common own) = .error { name := p.name, fault } →
    Refuses path container { name := p.name, fault }

/-- A query is refused under the name of a querystring. -/
theorem exists_of_checkQuery {method : Method} {ps : List Resolved} {e : Invalid}
    (h : checkQuery path method ps = .error e) :
    ∃ p ∈ ps, p.location = .querystring ∧ ∃ fault, e = { name := p.name, fault } := by
  have hmem {p : Resolved} (hp : p ∈ inLocation .querystring ps) :
      p ∈ ps ∧ p.location = .querystring := by simpa [inLocation] using hp
  rw [checkQuery] at h
  split at h
  next => cases h
  next p q rest hps =>
    cases h
    obtain ⟨hp, hl⟩ := hmem (hps ▸ List.mem_cons_self)
    exact ⟨p, hp, hl, _, rfl⟩
  next p q rest hps hquery =>
    cases h
    obtain ⟨hp, hl⟩ := hmem (hps ▸ List.mem_cons_self)
    exact ⟨p, hp, hl, _, rfl⟩
  next => cases h

theorem Declared.refuses_of_route {x : Declared} {e : Invalid} {common : List Resolved}
    (hx : (x.method, x.operation) ∈ operationsOf x.container.item)
    (hcommon : resolveAll x.container.parametersOrigin x.container.item.parameters = .ok common)
    (h : x.route security = .error e) : Refuses x.path x.container e := by
  rcases bind_eq_error_iff.mp h with h | ⟨ps, hps, h⟩
  · rcases bind_eq_error_iff.mp h with h | ⟨common', -, h⟩
    · rw [hcommon] at h
      cases h
    rcases bind_eq_error_iff.mp h with h | ⟨own, -, h⟩
    · exact .own hx (refused_of_resolveAll h)
    · cases h
  · obtain ⟨common', hcommon', hps⟩ := bind_eq_ok_iff.mp hps
    obtain ⟨own, hown, hps⟩ := bind_eq_ok_iff.mp hps
    cases hps
    rcases bind_eq_error_iff.mp h with h | ⟨⟨⟩, -, h⟩
    · have hkeeps : ¬ KeepsQuery (merge common' own) := fun hkeeps => by
        rw [checkQuery_eq_ok_iff.mpr hkeeps] at h
        cases h
      obtain ⟨p, hp, hl, fault, rfl⟩ := exists_of_checkQuery h
      exact .query hx hcommon' hown hkeeps hp hl h
    · cases h

theorem refuses_of_ofMerged {container : PathItem.Merged} {e : Invalid}
    (h : ofMerged path kind security container = .error e) : Refuses path container e := by
  cases hcommon : resolveAll container.parametersOrigin container.item.parameters with
  | error e' =>
    rw [ofMerged, hcommon] at h
    cases h
    exact .common (refused_of_resolveAll hcommon)
  | ok common =>
    rw [ofMerged_eq hcommon] at h
    obtain ⟨x, hx, hroute⟩ := exists_mem_of_mapM_eq_error h
    obtain ⟨y, hy, rfl⟩ := List.mem_map.mp hx
    exact Declared.refuses_of_route hy hcommon hroute

/-! ## What a listing is refused for -/

variable {ctx : PathItem.Context (StateM σ)} {s s' : σ} {e : Invalid}

theorem run_bind_eq_error {α β : Type} {x : ExceptT Invalid (StateM σ) α}
    {f : α → ExceptT Invalid (StateM σ) β} (h : (x >>= f).run.run s = (.error e, s')) :
    x.run.run s = (.error e, s') ∨
      ∃ a s₁, x.run.run s = (.ok a, s₁) ∧ (f a).run.run s₁ = (.error e, s') := by
  rw [ExceptT.run_bind, StateT.run_bind] at h
  rcases hx : x.run.run s with ⟨_ | a, s₁⟩ <;> rw [hx] at h
  · cases h
    exact .inl rfl
  · exact .inr ⟨a, s₁, rfl, h⟩

/-- A path item that is resolved is refused, or one of those after it is. -/
theorem run_ofItems_refused {item : PathItem} {items : List (String × PathItem)} {s₁ : σ}
    {container : PathItem.Merged} (h : (PathItem.resolve ctx item).run s = (some container, s₁))
    (herror : (ofItems kind security ctx ((path, item) :: items)).run.run s = (.error e, s')) :
    ofMerged path kind security container = .error e ∧ s₁ = s' ∨
      (ofItems kind security ctx items).run.run s₁ = (.error e, s') := by
  rw [ofItems] at herror
  rcases run_bind_eq_error herror with herror | ⟨found, s₂, hfound, herror⟩
  · rw [ExceptT.run_liftM, StateT.run_map, h] at herror
    cases herror
  have hfound : (some found, s₂) = (some (some container), s₁) := by
    rw [ExceptT.run_liftM, StateT.run_map, h] at hfound
    cases hfound
    rfl
  cases hfound
  rcases run_bind_eq_error herror with herror | ⟨here, s₃, hhere, herror⟩
  · exact .inl (Prod.mk.inj herror)
  obtain rfl : s₁ = s₃ := (Prod.mk.inj hhere).2
  rcases run_bind_eq_error herror with herror | ⟨more, s₄, -, herror⟩
  · exact .inr herror
  · cases herror

/-- The path item that a listing is refused for: those before it are resolved as in any listing, it
is resolved itself, and no other one is after it. -/
structure RefusedAt (ctx : PathItem.Context (StateM σ)) (items : List (Kind × String × PathItem))
    (s : σ) (e : Invalid) (s' : σ) (before : List (Kind × String × PathItem)) (kind : Kind)
    (path : String) (item : PathItem) (container : PathItem.Merged) : Prop where
  listed : before ++ [(kind, path, item)] <+: items
  run : ∃ resolved s₁, (resolveEach ctx before).run s = (resolved, s₁) ∧
    (PathItem.resolve ctx item).run s₁ = (some container, s')
  refuses : Refuses path container e

theorem ofItems_eq_error {items : List (String × PathItem)}
    (h : (ofItems kind security ctx items).run.run s = (.error e, s')) :
    ∃ before path item container,
      RefusedAt ctx (items.map (kind, ·)) s e s' before kind path item container := by
  induction items generalizing s with
  | nil => cases h
  | cons x items ih =>
    obtain ⟨path, item⟩ := x
    have later {container? : Option PathItem.Merged} {s₁ : σ}
        (hitem : (PathItem.resolve ctx item).run s = (container?, s₁))
        (h : (ofItems kind security ctx items).run.run s₁ = (.error e, s')) :
        ∃ before path' item' container, RefusedAt ctx (((path, item) :: items).map (kind, ·)) s e s'
          before kind path' item' container := by
      obtain ⟨before, path', item', container, hlisted, ⟨resolved, s₂, hbefore, hrun⟩, hr⟩ := ih h
      refine ⟨(kind, path, item) :: before, path', item', container, ?_, ?_, hr⟩
      · exact List.cons_prefix_cons.mpr ⟨rfl, hlisted⟩
      · exact ⟨_, s₂, run_resolveEach_cons hitem hbefore, hrun⟩
    rcases hitem : (PathItem.resolve ctx item).run s with ⟨_ | container, s₁⟩
    · rw [run_ofItems_unresolved hitem] at h
      exact later hitem h
    · rcases run_ofItems_refused hitem h with ⟨hmerged, rfl⟩ | h
      · refine ⟨[], path, item, container, ?_, ⟨[], s, rfl, hitem⟩, refuses_of_ofMerged hmerged⟩
        exact List.cons_prefix_cons.mpr ⟨rfl, List.nil_prefix⟩
      · exact later hitem h

/-- A listing of paths and webhooks is refused for one of them. -/
theorem ofMaps_eq_error {paths : PathMap} {webhooks : Option PathMap}
    (h : (ofMaps paths webhooks security ctx).run.run s = (.error e, s')) :
    ∃ before kind path item container,
      RefusedAt ctx (listedItems paths webhooks) s e s' before kind path item container := by
  rw [ofMaps_eq] at h
  rcases run_bind_eq_error h with h | ⟨fromPaths, s₁, hpaths, h⟩
  · obtain ⟨before, path, item, container, hlisted, hrun, hr⟩ := ofItems_eq_error h
    exact ⟨before, .path, path, item, container, hlisted.trans (List.prefix_append _ _), hrun, hr⟩
  rcases run_bind_eq_error h with h | ⟨fromWebhooks, s₂, -, h⟩
  · obtain ⟨resolved, hresolved, -⟩ := ofItems_eq_ok hpaths
    obtain ⟨before, path, item, container, hlisted, ⟨more, s₃, hbefore, hrun⟩, hr⟩ :=
      ofItems_eq_error h
    refine ⟨paths.items.entries.map (Kind.path, ·) ++ before, .webhook, path, item, container, ?_,
      ⟨_, s₃, run_resolveEach_append hresolved hbefore, hrun⟩, hr⟩
    rw [List.append_assoc]
    exact (List.prefix_append_right_inj _).mpr hlisted
  · cases h

end Route

namespace Document

open PathItem Route

/-- Resolvers that answer alike, where one may fail and the other find nothing, make no difference
to the operations of a document. And whatever the resolver, and without one, the operations are
refused for the parameters of a path item that is resolved: neither a path item nor a parameter
whose reference leads nowhere, nor a schema without types, is ever the reason. -/
theorem failures_contained (d : Document) (known : Nat) :
    (∀ {σ τ ε δ : Type} (Q : σ → τ → Prop) (r : Option (Resolver ε (StateM σ)))
      (r' : Option (Resolver δ (StateM τ))), AnswerAlike Q r r' → ∀ s t, Q s t →
      ∃ result s' t', (d.operations r known).run.run s = (result, s') ∧
        (d.operations r' known).run.run t = (result, t') ∧ Q s' t') ∧
    ∀ {σ ε : Type} (r : Option (Resolver ε (StateM σ))) s s' e,
      (d.operations r known).run.run s = (.error e, s') →
      ∃ before kind path item container,
        RefusedAt (d.context (r.map Resolver.lookup) known) (listedItems d.paths d.webhooks) s e s'
          before kind path item container :=
  ⟨fun _ _ _ h s t hQ => simulates_ofMaps (simulates_resolve h.simulates _ _) _ _ s t hQ,
    fun _ _ _ _ h => ofMaps_eq_error h⟩

/-- A resolver that always fails. -/
def offline : Resolver Unit (StateM Unit) := fun _ _ => return .error ()

/-- Paths the first of which is written in another document, while the second has parameters. -/
def withShared (parameters : List Entry) : Document where
  paths := { items := .ofList [
    ("/shared", { reference := some "shared.yaml#/components/pathItems/Shared" }),
    ("/items", {
      parameters
      fixed := fun m => if m = .get then some {} else none })] }

/-- A reference to a parameter that there is not, and a schema that is none. -/
def unknownEntries : List Entry :=
  [.reference { target := "#/components/parameters/Missing" },
    .inline {
      name := "filter"
      location := .query
      style := some .deepObject
      schema := some (.string "object") }]

/-- A parameter that is declared twice. -/
def repeatedEntries : List Entry :=
  [.inline { name := "page", location := .query }, .inline { name := "page", location := .query }]

/-- With a resolver that fails and without one there is a route of the second path, which is refused
for the parameter that is declared twice. -/
theorem failures_contained_shared :
    (∃ routes, ((withShared unknownEntries).operations (some offline) 0).run.run () =
        (.ok routes, ()) ∧
      ((withShared unknownEntries).operations (none : Option (Resolver Unit (StateM Unit)))
        0).run.run () = (.ok routes, ()) ∧
      routes.map identity = [(.path, "/items", "GET")]) ∧
    ∃ before kind path item container, RefusedAt
      ((withShared repeatedEntries).context (some (Resolver.lookup offline)) 0)
      (listedItems (withShared repeatedEntries).paths (withShared repeatedEntries).webhooks) ()
      { name := "page", fault := .declaredTwice .query } () before kind path item container := by
  constructor
  · have halike : AnswerAlike (fun _ _ => True) (some offline)
        (none : Option (Resolver Unit (StateM Unit))) := fun _ _ _ _ _ =>
      ⟨.error (), .ok none, (), (), rfl, rfl, .failed (), trivial⟩
    obtain ⟨result, ⟨⟩, ⟨⟩, hfails, hmisses, -⟩ :=
      (failures_contained (withShared unknownEntries) 0).1 _ _ _ halike () () trivial
    have hlisted : (((withShared unknownEntries).operations (some offline) 0).run.run
        ()).1.toOption.map (·.map identity) = some [(.path, "/items", "GET")] := by
      decide +kernel
    rw [hfails] at hlisted
    cases result with
    | error e => cases hlisted
    | ok routes => exact ⟨routes, hfails, hmisses, Option.some.inj hlisted⟩
  · have hrefused : (((withShared repeatedEntries).operations (some offline) 0).run.run ()).1.map
        (·.map identity) = .error { name := "page", fault := .declaredTwice .query } := by
      decide +kernel
    rcases hrun : ((withShared repeatedEntries).operations (some offline) 0).run.run ()
      with ⟨e | routes, ⟨⟩⟩ <;> rw [hrun] at hrefused
    · cases hrefused
      exact (failures_contained (withShared repeatedEntries) 0).2 (some offline) () () _ hrun
    · cases hrefused

end Document

end OpenApi
