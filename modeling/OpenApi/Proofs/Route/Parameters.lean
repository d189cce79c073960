import OpenApi.Document
import OpenApi.Proofs.Parameter.Listing
import OpenApi.Proofs.Route.Listing

/-!
# Parameters of routes

The parameters of a route come from two lists that may be written in different documents, and are
checked once more when they have been merged: a querystring is the whole query, so that nothing else
may be in it.

* `checkQuery_eq_ok_iff`: what the last check lets pass;
* `Declared.route_eq_ok`: what holds of the parameters of a route;
* `ofMerged_eq_error_iff`: once the lists are resolved, the last check alone refuses a path item;
* `routes_parameters`: both, of every document and every lookup.
-/

namespace OpenApi.Route

open Json Parameter

variable {kind : Kind} {path : String} {security : Option (List Value)} {ps : List Resolved}

/-! ## The query -/

/-- At most one parameter is the querystring, and no parameter of the query is beside it. -/
def KeepsQuery (ps : List Resolved) : Prop :=
  ps.countP (·.location = .querystring) ≤ 1 ∧
    ∀ p ∈ ps, p.location = .querystring → ∀ q ∈ ps, q.location ≠ .query

theorem keepsQuery_iff : KeepsQuery ps ↔ (inLocation .querystring ps).length ≤ 1 ∧
    (inLocation .querystring ps = [] ∨ inLocation .query ps = []) := by
  have hlength : ps.countP (·.location = .querystring) = (inLocation .querystring ps).length := by
    rw [List.countP_eq_length_filter, inLocation]
    rfl
  have hempty (location : Location) :
      inLocation location ps = [] ↔ ∀ p ∈ ps, p.location ≠ location := by
    simp [inLocation, List.filter_eq_nil_iff]
  rw [KeepsQuery, hlength, hempty, hempty]
  refine and_congr_right fun _ => ⟨fun h => ?_, ?_⟩
  · by_cases hquery : ∀ q ∈ ps, q.location ≠ .query
    · exact .inr hquery
    · exact .inl fun p hp hl => hquery (h p hp hl)
  · rintro (h | h) p hp hl
    · exact absurd hl (h p hp)
    · exact h

instance : Decidable (KeepsQuery ps) := decidable_of_iff' _ keepsQuery_iff

theorem checkQuery_eq_ok_iff {method : Method} :
    checkQuery path method ps = .ok () ↔ KeepsQuery ps := by
  rw [keepsQuery_iff, checkQuery]
  split <;> simp_all

/-! ## One route -/

/-- The parameters of a route combine the resolved parameters of its path item with those of its
operation, are listed as those are, and keep the query. -/
structure HasParameters (x : Declared) (ps : List Resolved) : Prop where
  combines : ∃ common own,
    resolveAll x.container.parametersOrigin x.container.item.parameters = .ok common ∧
    resolveAll x.container.origin x.operation.parameters = .ok own ∧ Combines common own ps
  listed : Listed ps
  query : KeepsQuery ps

theorem Declared.route_eq_ok {x : Declared} {route : Route} (h : x.route security = .ok route) :
    HasParameters x route.parameters := by
  obtain ⟨parameters, hparameters, h⟩ := bind_eq_ok_iff.mp h
  obtain ⟨⟨⟩, hquery, h⟩ := bind_eq_ok_iff.mp h
  cases h
  obtain ⟨common, hcommon, hparameters⟩ := bind_eq_ok_iff.mp hparameters
  obtain ⟨own, hown, hparameters⟩ := bind_eq_ok_iff.mp hparameters
  cases hparameters
  have hc := listed_of_resolveAll hcommon
  have ho := listed_of_resolveAll hown
  exact ⟨⟨common, own, hcommon, hown, combines_merge hc.distinct ho.distinct⟩, hc.merge ho,
    checkQuery_eq_ok_iff.mp hquery⟩

/-- Once the parameters of an operation are known, its route is refused exactly for the query. -/
theorem Declared.route_eq_error_iff {x : Declared} (h : x.parameters = .ok ps) :
    (∃ e, x.route security = .error e) ↔ ¬ KeepsQuery ps := by
  have hroute : x.route security = checkQuery x.path x.method ps >>= fun _ =>
      .ok (ofOperation x.path x.kind security x.container.item x.method x.operation ps) := by
    rw [Declared.route, h]
    rfl
  rw [hroute, ← @checkQuery_eq_ok_iff x.path ps x.method]
  cases checkQuery x.path x.method ps <;> simp [bind, Except.bind]

/-! ## Path items -/

theorem container_of_mem_declaredIn {container : PathItem.Merged} {x : Declared}
    (h : x ∈ declaredIn kind path container) : x.container = container := by
  obtain ⟨e, -, rfl⟩ := List.mem_map.mp h
  rfl

/-- Once all lists are resolved, a path item is refused exactly for the query of an operation. -/
theorem ofMerged_eq_error_iff {container : PathItem.Merged} {common : List Resolved}
    (hcommon : resolveAll container.parametersOrigin container.item.parameters = .ok common)
    (hown : ∀ x ∈ declaredIn kind path container,
      ∃ own, resolveAll container.origin x.operation.parameters = .ok own) :
    (∃ e, ofMerged path kind security container = .error e) ↔
      ∃ x ∈ declaredIn kind path container, ∃ ps, x.parameters = .ok ps ∧ ¬ KeepsQuery ps := by
  rw [ofMerged_eq hcommon, exists_error_mapM_iff]
  refine exists_congr fun x => and_congr_right fun hx => ?_
  obtain ⟨own, ho⟩ := hown x hx
  have hparameters : x.parameters = .ok (merge common own) := by
    rw [Declared.parameters, container_of_mem_declaredIn hx, hcommon, ho]
    rfl
  rw [Declared.route_eq_error_iff hparameters]
  constructor
  · exact fun h => ⟨_, hparameters, h⟩
  · rintro ⟨ps, hps, h⟩
    rw [hparameters] at hps
    cases hps
    exact h

/-! ## Documents -/

/-- Every route of a document, through whatever lookup, has the parameters of its path item and of
its operation, listed once each, and keeps the query. A path item whose lists are resolved is
refused exactly for the query of an operation. -/
theorem routes_parameters {σ : Type} (d : Document) (lookup : Option (PathItem.Lookup (StateM σ)))
    (known : Nat) :
    (∀ s s' routes, (d.routes lookup known).run.run s = (.ok routes, s') →
      ∃ resolved, (resolveEach (d.context lookup known) (listedItems d.paths d.webhooks)).run s =
          (resolved, s') ∧
        List.Forall₂ (fun x route => HasParameters x route.parameters) (declared resolved) routes) ∧
    ∀ kind path security container common,
      resolveAll container.parametersOrigin container.item.parameters = .ok common →
      (∀ x ∈ declaredIn kind path container,
        ∃ own, resolveAll container.origin x.operation.parameters = .ok own) →
      ((∃ e, ofMerged path kind security container = .error e) ↔
        ∃ x ∈ declaredIn kind path container, ∃ ps, x.parameters = .ok ps ∧ ¬ KeepsQuery ps) := by
  refine ⟨fun s s' routes h => ?_, fun _ _ _ _ _ => ofMerged_eq_error_iff⟩
  obtain ⟨resolved, hresolved, hroutes⟩ := ofMaps_eq_ok h
  exact ⟨resolved, hresolved, hroutes.imp fun _ _ => Declared.route_eq_ok⟩

/-- A path item with two parameters, one of which its operation replaces; of the headers that the
operation adds one is described elsewhere. -/
def itemsDocument : Document where
  paths := { items := .ofList [("/items", {
    parameters := [.inline { name := "x", location := .query },
      .inline { name := "page", location := .query }]
    fixed := fun m => if m = .get then some {
      parameters := [.inline { name := "trace", location := .header },
        .inline { name := "ACCEPT", location := .header },
        .inline { name := "x", location := .query, description := some "own" }] } else none })] }

/-- An operation with a parameter of the query. -/
def search : Operation where
  parameters := [.inline { name := "limit", location := .query }]

/-- A path item with the querystring around that operation. -/
def searchContainer : PathItem.Merged where
  origin := {}
  item := {
    parameters := [.inline { name := "q", location := .querystring }]
    fixed := fun m => if m = .get then some search else none }

/-- The first list is merged, and the second is refused for the query alone. -/
theorem routes_parameters_items :
    (∃ routes, (itemsDocument.routes (none : Option (PathItem.Lookup (StateM Unit))) 0).run.run () =
        (.ok routes, ()) ∧
      (∀ route ∈ routes, Listed route.parameters ∧ KeepsQuery route.parameters) ∧
      routes.map (fun route => route.parameters.map fun p => (p.name, p.description)) =
        [[("x", some "own"), ("page", none), ("trace", none)]]) ∧
    ∃ e, ofMerged "/search" .path none searchContainer = .error e := by
  obtain ⟨hroutes, hrefused⟩ := routes_parameters itemsDocument
    (none : Option (PathItem.Lookup (StateM Unit))) 0
  constructor
  · have hlisted : ((itemsDocument.routes (none : Option (PathItem.Lookup (StateM Unit))) 0).run.run
        ()).1.toOption.map (·.map fun route => route.parameters.map fun p =>
          (p.name, p.description)) =
        some [[("x", some "own"), ("page", none), ("trace", none)]] := by
      decide +kernel
    rcases hrun : (itemsDocument.routes (none : Option (PathItem.Lookup (StateM Unit)))
      0).run.run () with ⟨_ | routes, ⟨⟩⟩ <;> rw [hrun] at hlisted
    · cases hlisted
    · obtain ⟨resolved, -, hdeclared⟩ := hroutes () () routes hrun
      refine ⟨routes, rfl, fun route hroute => ?_, Option.some.inj hlisted⟩
      obtain ⟨x, -, hx⟩ := exists_of_mem_forall₂ hdeclared hroute
      exact ⟨hx.listed, hx.query⟩
  · have hx : declaredIn .path "/search" searchContainer =
        [⟨.path, "/search", searchContainer, .fixed .get, search⟩] := rfl
    obtain ⟨common, hcommon⟩ : ∃ common, resolveAll searchContainer.parametersOrigin
        searchContainer.item.parameters = .ok common := ⟨_, rfl⟩
    refine (hrefused .path "/search" none searchContainer common hcommon ?_).mpr ?_
    · rw [hx, List.forall_mem_singleton]
      exact ⟨_, rfl⟩
    · rw [hx]
      exact ⟨_, List.mem_singleton_self _, _, rfl, by decide +kernel⟩

end OpenApi.Route
