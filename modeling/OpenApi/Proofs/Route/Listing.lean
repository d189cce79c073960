import Mathlib.Data.List.Nodup
import OpenApi.Proofs.Result
import OpenApi.Proofs.Text
import OpenApi.Route

/-!
# What is listed

Routes are listed while path items are resolved one after another, through a lookup that may act.
`resolveEach` resolves them and lists nothing, and `declared` is the list of operations that the
path items so found declare, in order. The routes are those of the declared operations, one each.

* `ofMaps_eq_ok`: a listing that is not refused has the routes of the declared operations;
* `nodup_declared`: no two declared operations have kind, path and method token in common;
* `ofMaps_restrict`: path items that are not resolved may be left out;
* `ofMaps_lists`: all three of every listing that is not refused.
-/

namespace OpenApi

open Json Parameter

/-- A path map with some of its entries. -/
def PathMap.restrict (p : PathMap) (keep : String × PathItem → Bool) : PathMap :=
  { p with
    items := {
      entries := p.items.entries.filter keep
      nodup := (List.filter_sublist.map Prod.fst).nodup p.items.nodup } }

/-- The characters of method tokens, one by one. -/
theorem Method.isTokenCharacter_iff (c : Char) : Method.isTokenCharacter c = true ↔
    c ∈ "!#$%&'*+-.0123456789ABCDEFGHIJKLMNOPQRSTUVWXYZ^_`".toList ++
      "abcdefghijklmnopqrstuvwxyz|~".toList := by
  refine Text.iff_mem_of_filter (fun c hc => ?_) ?_ c
  · rw [Method.isTokenCharacter, Bool.or_eq_true, List.contains_iff_mem] at hc
    rcases hc with hc | hc
    · have hrange := Text.toNat_of_isAlphanum hc
      omega
    · exact Text.toNat_lt_of_mem (by decide) hc
  · decide +kernel

namespace Route

/-! ## Operations of a path item -/

/-- The methods with a slot, in the order in which they are listed. -/
def slotOrder : List FixedMethod :=
  [.get, .put, .post, .delete, .options, .head, .patch, .trace, .query]

/-- A text that an additional operation is listed under: a token that is not the one of a method
with a slot, in whatever case. -/
def IsAdditional (token : String) : Prop :=
  (token ≠ "" ∧ ∀ c ∈ token.toList, Method.isTokenCharacter c = true) ∧
    ∀ m : FixedMethod, Text.asciiLower token ≠ Text.asciiLower m.token

theorem mem_slotOrder (m : FixedMethod) : m ∈ slotOrder := by
  cases m <;> decide

theorem asciiLower_token (m : FixedMethod) : Text.asciiLower m.token = m.field := by
  cases m <;> decide +kernel

theorem isAdditional_iff {token : String} :
    IsAdditional token ↔ (Method.isToken token && !Method.isReserved token) = true := by
  have hreserved : Method.isReserved token = false ↔
      ∀ m : FixedMethod, Text.asciiLower token ≠ Text.asciiLower m.token := by
    simp only [Method.isReserved, List.any_eq_false, beq_iff_eq, asciiLower_token]
    exact ⟨fun h m => Ne.symm (h m (mem_slotOrder m)), fun h m _ => Ne.symm (h m)⟩
  rw [Bool.and_eq_true, Bool.not_eq_true', hreserved, Method.isToken, Bool.and_eq_true,
    Bool.not_eq_true', ← Bool.not_eq_true, String.isEmpty_iff, List.all_eq_true]
  rfl

instance : DecidablePred IsAdditional := fun _ => decidable_of_iff' _ isAdditional_iff

/-- The operations of a path item: those in slots, and then the additional ones, in order. -/
def operationsOf (item : PathItem) : List (Method × Operation) :=
  (slotOrder.filterMap fun m => (item.fixed m).map (Method.fixed m, ·)) ++
    (item.additional.entries.filter fun e => IsAdditional e.1).map fun e => (.custom e.1, e.2)

theorem operations_eq (item : PathItem) : item.operations = operationsOf item := by
  rw [PathItem.operations, operationsOf, PathItem.customOperations]
  refine congrArg₂ _ rfl (congrArg _ (List.filter_congr fun e _ => ?_))
  rw [Bool.eq_iff_iff, decide_eq_true_iff, isAdditional_iff]

theorem token_injective : Function.Injective FixedMethod.token := by
  intro m m' h
  cases m <;> cases m' <;> first | rfl | exact absurd h (by decide)

/-- The tokens of a path item's operations differ. -/
theorem nodup_tokens (item : PathItem) : ((operationsOf item).map fun e => e.1.token).Nodup := by
  have hslots : ∀ m token, token ∈ ((item.fixed m).map (Method.fixed m, ·)).map (·.1.token) →
      m.token = token := by
    intro m token h
    obtain ⟨-, -, rfl⟩ := by simpa using h
    rfl
  rw [operationsOf, List.map_append, List.map_filterMap, List.map_map, List.nodup_append']
  refine ⟨?_, ?_, ?_⟩
  · refine List.Nodup.filterMap (fun m m' token h h' => ?_) (by decide)
    exact token_injective ((hslots m token h).trans (hslots m' token h').symm)
  · exact (List.filter_sublist.map Prod.fst).nodup item.additional.nodup
  · intro token hslot hadditional
    obtain ⟨m, -, hm⟩ := List.mem_filterMap.mp hslot
    obtain ⟨e, he, rfl⟩ := List.mem_map.mp hadditional
    have hother : IsAdditional e.1 := by simpa using (List.mem_filter.mp he).2
    exact hother.2 m (congrArg Text.asciiLower (hslots m _ hm)).symm

/-! ## Declared operations -/

/-- An operation, the path item that declares it, and what the path item is listed under. -/
structure Declared where
  kind : Kind
  path : String
  container : PathItem.Merged
  method : Method
  operation : Operation

namespace Declared

/-- What tells an operation from the others that are listed. -/
def identity (x : Declared) : Kind × String × String := (x.kind, x.path, x.method.token)

/-- The parameters of an operation: those of its path item with its own in their place. -/
def parameters (x : Declared) : Except Invalid (List Resolved) := do
  let common ← resolveAll x.container.parametersOrigin x.container.item.parameters
  let own ← resolveAll x.container.origin x.operation.parameters
  return merge common own

/-- The route of an operation. -/
def route (security : Option (List Value)) (x : Declared) : Except Invalid Route := do
  let parameters ← x.parameters
  checkQuery x.path x.method parameters
  return ofOperation x.path x.kind security x.container.item x.method x.operation parameters

end Declared

/-- The operations of a path item that is listed. -/
def declaredIn (kind : Kind) (path : String) (container : PathItem.Merged) : List Declared :=
  (operationsOf container.item).map fun e =>
    { kind, path, container, method := e.1, operation := e.2 }

/-- The operations of path items, those that are not resolved left out. -/
def declared (resolved : List (Kind × String × Option PathItem.Merged)) : List Declared :=
  resolved.flatMap fun (kind, path, container?) => container?.elim [] (declaredIn kind path)

/-- The path items of paths and then of webhooks. -/
def listedItems (paths : PathMap) (webhooks : Option PathMap) : List (Kind × String × PathItem) :=
  paths.items.entries.map (Kind.path, ·) ++
    (webhooks.elim [] (·.items.entries)).map (Kind.webhook, ·)

/-- What path items stand for, resolved one after another. -/
def resolveEach {m : Type → Type} [Monad m] (ctx : PathItem.Context m)
    (items : List (Kind × String × PathItem)) : m (List (Kind × String × Option PathItem.Merged)) :=
  items.mapM fun (kind, path, item) => return (kind, path, ← PathItem.resolve ctx item)

/-- What tells a route from the others that are listed. -/
def identity (r : Route) : Kind × String × String := (r.kind, r.path, r.method.token)

/-! ### Routes of a path item -/

variable {kind : Kind} {path : String} {security : Option (List Value)} {routes : List Route}

/-- Once the common parameters are resolved, the routes of a path item are those of its
operations. -/
theorem ofMerged_eq {container : PathItem.Merged} {common : List Resolved}
    (h : resolveAll container.parametersOrigin container.item.parameters = .ok common) :
    ofMerged path kind security container =
      (declaredIn kind path container).mapM (Declared.route security) := by
  rw [ofMerged, h, declaredIn, List.mapM_map, ← operations_eq]
  refine congrArg (List.mapM · _) (funext fun e => ?_)
  simp only [Function.comp_apply, Declared.route, Declared.parameters, h, bind_assoc, pure_bind]
  rfl

theorem forall₂_of_ofMerged {container : PathItem.Merged}
    (h : ofMerged path kind security container = .ok routes) :
    List.Forall₂ (fun x route => x.route security = .ok route)
      (declaredIn kind path container) routes := by
  obtain ⟨common, hcommon, -⟩ := bind_eq_ok_iff.mp h
  rw [ofMerged_eq hcommon] at h
  exact mapM_eq_ok_iff.mp h

theorem identity_of_route {x : Declared} {route : Route} (h : x.route security = .ok route) :
    identity route = x.identity := by
  obtain ⟨parameters, -, h⟩ := bind_eq_ok_iff.mp h
  obtain ⟨-, -, h⟩ := bind_eq_ok_iff.mp h
  cases h
  rfl

/-! ### Identities -/

theorem nodup_declaredIn (kind : Kind) (path : String) (container : PathItem.Merged) :
    ((declaredIn kind path container).map Declared.identity).Nodup := by
  have htokens := (nodup_tokens container.item).map (f := fun token => (kind, path, token))
    fun _ _ h => (Prod.mk.inj (Prod.mk.inj h).2).2
  rw [List.map_map] at htokens
  rw [declaredIn, List.map_map]
  exact htokens

theorem identity_of_mem_declaredIn {container : PathItem.Merged} {x : Declared}
    (h : x ∈ declaredIn kind path container) : x.kind = kind ∧ x.path = path := by
  obtain ⟨e, -, rfl⟩ := List.mem_map.mp h
  exact ⟨rfl, rfl⟩

/-- Operations of path items that are listed under different paths or kinds differ, too. -/
theorem nodup_declared {resolved : List (Kind × String × Option PathItem.Merged)}
    (h : (resolved.map fun x => (x.1, x.2.1)).Nodup) :
    ((declared resolved).map Declared.identity).Nodup := by
  rw [declared, List.map_flatMap, List.nodup_flatMap]
  constructor
  · rintro ⟨kind, path, _ | container⟩ -
    · exact List.nodup_nil
    · exact nodup_declaredIn kind path container
  · refine (List.pairwise_map.mp h).imp ?_
    rintro ⟨kind, path, _ | container⟩ ⟨kind', path', _ | container'⟩ hne identity hx hx' <;>
      simp only [Option.elim, List.map_nil, List.not_mem_nil] at hx hx'
    obtain ⟨x, hmem, rfl⟩ := List.mem_map.mp hx
    obtain ⟨x', hmem', he⟩ := List.mem_map.mp hx'
    obtain ⟨rfl, rfl⟩ := identity_of_mem_declaredIn hmem
    obtain ⟨rfl, rfl⟩ := identity_of_mem_declaredIn hmem'
    exact hne (Prod.ext (congrArg (·.1) he).symm (congrArg (·.2.1) he).symm)

theorem nodup_listedItems (paths : PathMap) (webhooks : Option PathMap) :
    ((listedItems paths webhooks).map fun x => (x.1, x.2.1)).Nodup := by
  have hkeys (kind : Kind) (items : OrderedMap PathItem) :
      ((items.entries.map (kind, ·)).map fun x => (x.1, x.2.1)).Nodup := by
    have := items.nodup.map (f := fun path => (kind, path)) fun _ _ h => (Prod.mk.inj h).2
    rwa [List.map_map] at this ⊢
  rw [listedItems, List.map_append, List.nodup_append']
  refine ⟨hkeys _ _, ?_, ?_⟩
  · cases webhooks with
    | none => exact List.nodup_nil
    | some webhooks => exact hkeys _ _
  · intro key hp hw
    simp only [List.map_map, List.mem_map] at hp hw
    obtain ⟨_, -, rfl⟩ := hp
    obtain ⟨_, -, he⟩ := hw
    exact absurd (congrArg Prod.fst he) (by simp)

/-! ## Runs of a listing -/

variable {σ : Type} {ctx : PathItem.Context (StateM σ)} {s s' : σ}

/-- A listing that is not refused is one part and then another. -/
theorem run_bind_eq_ok {α β : Type} {x : ExceptT Invalid (StateM σ) α}
    {f : α → ExceptT Invalid (StateM σ) β} {b : β} (h : (x >>= f).run.run s = (.ok b, s')) :
    ∃ a s₁, x.run.run s = (.ok a, s₁) ∧ (f a).run.run s₁ = (.ok b, s') := by
  rw [ExceptT.run_bind, StateT.run_bind] at h
  rcases hx : x.run.run s with ⟨_ | a, s₁⟩ <;> rw [hx] at h
  · cases h
  · exact ⟨a, s₁, rfl, h⟩

theorem run_resolveEach_cons {item : PathItem} {container? : Option PathItem.Merged} {s₁ : σ}
    {items : List (Kind × String × PathItem)}
    {resolved : List (Kind × String × Option PathItem.Merged)}
    (h : (PathItem.resolve ctx item).run s = (container?, s₁))
    (hrest : (resolveEach ctx items).run s₁ = (resolved, s')) :
    (resolveEach ctx ((kind, path, item) :: items)).run s =
      ((kind, path, container?) :: resolved, s') := by
  rw [resolveEach, List.mapM_cons]
  simp only [StateT.run_bind, bind_assoc]
  rw [h]
  show StateT.run (do
    let more ← resolveEach ctx items
    pure ((kind, path, container?) :: more)) s₁ = _
  rw [StateT.run_bind, hrest]
  rfl

theorem run_resolveEach_append {xs ys : List (Kind × String × PathItem)} {s₁ : σ}
    {resolved more : List (Kind × String × Option PathItem.Merged)}
    (h : (resolveEach ctx xs).run s = (resolved, s₁))
    (hmore : (resolveEach ctx ys).run s₁ = (more, s')) :
    (resolveEach ctx (xs ++ ys)).run s = (resolved ++ more, s') := by
  rw [resolveEach, List.mapM_append]
  show StateT.run (do
    let resolved ← resolveEach ctx xs
    let more ← resolveEach ctx ys
    pure (resolved ++ more)) s = _
  rw [StateT.run_bind, h]
  show StateT.run (do
    let more ← resolveEach ctx ys
    pure (resolved ++ more)) s₁ = _
  rw [StateT.run_bind, hmore]
  rfl

theorem keys_resolveEach {items : List (Kind × String × PathItem)}
    {resolved : List (Kind × String × Option PathItem.Merged)}
    (h : (resolveEach ctx items).run s = (resolved, s')) :
    resolved.map (fun x => (x.1, x.2.1)) = items.map fun x => (x.1, x.2.1) := by
  induction items generalizing s resolved with
  | nil => cases h; rfl
  | cons x items ih =>
    obtain ⟨kind, path, item⟩ := x
    rcases hitem : (PathItem.resolve ctx item).run s with ⟨container?, s₁⟩
    rcases hrest : (resolveEach ctx items).run s₁ with ⟨more, s₂⟩
    rw [run_resolveEach_cons hitem hrest] at h
    cases h
    rw [List.map_cons, List.map_cons, ih hrest]

theorem run_ofItems_unresolved {item : PathItem} {items : List (String × PathItem)} {s₁ : σ}
    (h : (PathItem.resolve ctx item).run s = (none, s₁)) :
    (ofItems kind security ctx ((path, item) :: items)).run.run s =
      (ofItems kind security ctx items).run.run s₁ := by
  rw [ofItems]
  simp only [bind_pure_comp, pure_bind, List.nil_append_fun, id_map, ExceptT.run_bind,
    ExceptT.run_liftM, bind_map_left, StateT.run_bind, h]
  rfl

theorem run_ofItems_resolved {item : PathItem} {items : List (String × PathItem)} {s₁ : σ}
    {container : PathItem.Merged}
    (h : (PathItem.resolve ctx item).run s = (some container, s₁))
    (hroutes : (ofItems kind security ctx ((path, item) :: items)).run.run s = (.ok routes, s')) :
    ∃ here more, ofMerged path kind security container = .ok here ∧
      (ofItems kind security ctx items).run.run s₁ = (.ok more, s') ∧ routes = here ++ more := by
  rw [ofItems] at hroutes
  obtain ⟨found, s₂, hfound, hroutes⟩ := run_bind_eq_ok hroutes
  have hfound : (some found, s₂) = (some (some container), s₁) := by
    rw [ExceptT.run_liftM, StateT.run_map, h] at hfound
    cases hfound
    rfl
  cases hfound
  obtain ⟨here, s₃, hhere, hroutes⟩ := run_bind_eq_ok hroutes
  obtain ⟨more, s₄, hmore, hroutes⟩ := run_bind_eq_ok hroutes
  cases hroutes
  have hmerged : (ofMerged path kind security container, s₁) = (.ok here, s₃) := hhere
  obtain ⟨hof, rfl⟩ := Prod.mk.inj hmerged
  exact ⟨here, more, hof, hmore, rfl⟩

/-- A listing of path items that is not refused has the routes of the declared operations. -/
theorem ofItems_eq_ok {items : List (String × PathItem)}
    (h : (ofItems kind security ctx items).run.run s = (.ok routes, s')) :
    ∃ resolved, (resolveEach ctx (items.map (kind, ·))).run s = (resolved, s') ∧
      List.Forall₂ (fun x route => x.route security = .ok route) (declared resolved) routes := by
  induction items generalizing s routes with
  | nil => cases h; exact ⟨[], rfl, .nil⟩
  | cons x items ih =>
    obtain ⟨path, item⟩ := x
    rcases hitem : (PathItem.resolve ctx item).run s with ⟨_ | container, s₁⟩
    · rw [run_ofItems_unresolved hitem] at h
      obtain ⟨resolved, hrest, hroutes⟩ := ih h
      exact ⟨_, run_resolveEach_cons hitem hrest, hroutes⟩
    · obtain ⟨here, more, hhere, hmore, rfl⟩ := run_ofItems_resolved hitem h
      obtain ⟨resolved, hrest, hroutes⟩ := ih hmore
      exact ⟨_, run_resolveEach_cons hitem hrest,
        List.rel_append (forall₂_of_ofMerged hhere) hroutes⟩

theorem ofMaps_eq {m : Type → Type} [Monad m] {ctx : PathItem.Context m} (paths : PathMap)
    (webhooks : Option PathMap) :
    ofMaps paths webhooks security ctx = do
      let fromPaths ← ofItems .path security ctx paths.items.entries
      let fromWebhooks ← ofItems .webhook security ctx (webhooks.elim [] (·.items.entries))
      return fromPaths ++ fromWebhooks := by
  cases webhooks <;> rfl

/-- A listing of paths and webhooks that is not refused has the routes of the declared
operations. -/
theorem ofMaps_eq_ok {paths : PathMap} {webhooks : Option PathMap}
    (h : (ofMaps paths webhooks security ctx).run.run s = (.ok routes, s')) :
    ∃ resolved, (resolveEach ctx (listedItems paths webhooks)).run s = (resolved, s') ∧
      List.Forall₂ (fun x route => x.route security = .ok route) (declared resolved) routes := by
  rw [ofMaps_eq] at h
  obtain ⟨fromPaths, s₁, hpaths, h⟩ := run_bind_eq_ok h
  obtain ⟨fromWebhooks, s₂, hwebhooks, h⟩ := run_bind_eq_ok h
  cases h
  obtain ⟨resolved, hresolved, hroutes⟩ := ofItems_eq_ok hpaths
  obtain ⟨more, hmore, hmoreRoutes⟩ := ofItems_eq_ok hwebhooks
  refine ⟨resolved ++ more, run_resolveEach_append hresolved hmore, ?_⟩
  rw [declared, List.flatMap_append]
  exact List.rel_append hroutes hmoreRoutes

/-! ## Path items that are left out -/

theorem ofItems_filter {items : List (String × PathItem)} {keep : String × PathItem → Bool}
    (h : ∀ e ∈ items, keep e = false → PathItem.resolve ctx e.2 = pure none) :
    ofItems kind security ctx (items.filter keep) = ofItems kind security ctx items := by
  induction items with
  | nil => rfl
  | cons x items ih =>
    obtain ⟨hx, hitems⟩ := List.forall_mem_cons.mp h
    cases hk : keep x with
    | true =>
      rw [List.filter_cons_of_pos hk, ofItems, ofItems, ih hitems]
    | false =>
      rw [List.filter_cons_of_neg (by simp [hk]), ih hitems]
      refine ExceptT.ext (StateT.ext fun s => ?_)
      have hrun : (PathItem.resolve ctx x.2).run s = (none, s) := by rw [hx hk]; rfl
      exact (run_ofItems_unresolved hrun).symm

/-- Path items that are not resolved may be left out. -/
theorem ofMaps_restrict {paths : PathMap} {webhooks : Option PathMap}
    {keep : String × PathItem → Bool}
    (h : ∀ x ∈ listedItems paths webhooks, keep x.2 = false →
      PathItem.resolve ctx x.2.2 = pure none) :
    ofMaps (paths.restrict keep) (webhooks.map (·.restrict keep)) security ctx =
      ofMaps paths webhooks security ctx := by
  have hpaths : ∀ e ∈ paths.items.entries, keep e = false → PathItem.resolve ctx e.2 = pure none :=
    fun e he => h (.path, e) (List.mem_append_left _ (List.mem_map_of_mem he))
  have hwebhooks : ∀ e ∈ webhooks.elim [] (·.items.entries), keep e = false →
      PathItem.resolve ctx e.2 = pure none :=
    fun e he => h (.webhook, e) (List.mem_append_right _ (List.mem_map_of_mem he))
  have hentries : (webhooks.map (·.restrict keep)).elim [] (·.items.entries) =
      (webhooks.elim [] (·.items.entries)).filter keep := by
    cases webhooks <;> rfl
  rw [ofMaps_eq, ofMaps_eq, hentries, ofItems_filter hwebhooks]
  exact congrArg (· >>= _) (ofItems_filter hpaths)

/-- A listing that is not refused has one route for each operation of the path items that are
resolved, paths first, the slots of a path item before its additional operations. No two routes have
kind, path and token in common. Path items that are not resolved may be left out. -/
theorem ofMaps_lists {paths : PathMap} {webhooks : Option PathMap}
    (h : (ofMaps paths webhooks security ctx).run.run s = (.ok routes, s')) :
    (∃ resolved, (resolveEach ctx (listedItems paths webhooks)).run s = (resolved, s') ∧
      List.Forall₂ (fun x route => x.route security = .ok route) (declared resolved) routes) ∧
    (routes.map identity).Nodup ∧
    ∀ keep : String × PathItem → Bool,
      (∀ x ∈ listedItems paths webhooks, keep x.2 = false →
        PathItem.resolve ctx x.2.2 = pure none) →
      (ofMaps (paths.restrict keep) (webhooks.map (·.restrict keep)) security ctx).run.run s =
        (.ok routes, s') := by
  obtain ⟨resolved, hresolved, hroutes⟩ := ofMaps_eq_ok h
  refine ⟨⟨resolved, hresolved, hroutes⟩, ?_, fun keep hkeep => ?_⟩
  · rw [map_eq_of_forall₂ hroutes fun _ _ => identity_of_route]
    exact nodup_declared (keys_resolveEach hresolved ▸ nodup_listedItems paths webhooks)
  · rw [ofMaps_restrict hkeep]
    exact h

/-- Path items with three slots, and with additional operations two of which are not listed; another
path item is not found. -/
def filePaths : PathMap where
  items := .ofList [
    ("/missing", { reference := some "#/components/pathItems/Missing" }),
    ("/files", {
      fixed := fun m => if m = .query ∨ m = .delete ∨ m = .get then some {} else none
      additional := .ofList [("PURGE", {}), ("BAD TOKEN", {}), ("Post", {}), ("COPY", {})] })]

/-- A webhook under the name of a path. -/
def fileWebhooks : PathMap where
  items := .ofList [("/files", { fixed := fun m => if m = .get then some {} else none })]

/-- A document without components, and no other ones. -/
def fileContext : PathItem.Context (StateM Unit) := { origin := {}, limit := 1 }

/-- Slots come in their order and not in that of the text, and one path may be listed twice. -/
theorem ofMaps_lists_files : ∃ routes,
    (ofMaps filePaths (some fileWebhooks) none fileContext).run.run () = (.ok routes, ()) ∧
    (routes.map identity).Nodup ∧
    routes.map identity = [(.path, "/files", "GET"), (.path, "/files", "DELETE"),
      (.path, "/files", "QUERY"), (.path, "/files", "PURGE"), (.path, "/files", "COPY"),
      (.webhook, "/files", "GET")] := by
  have hlisted : ((ofMaps filePaths (some fileWebhooks) none fileContext).run.run ()).1.toOption.map
      (·.map identity) = some [(.path, "/files", "GET"), (.path, "/files", "DELETE"),
        (.path, "/files", "QUERY"), (.path, "/files", "PURGE"), (.path, "/files", "COPY"),
        (.webhook, "/files", "GET")] := by
    decide +kernel
  rcases hrun : (ofMaps filePaths (some fileWebhooks) none fileContext).run.run ()
    with ⟨_ | routes, ⟨⟩⟩ <;> rw [hrun] at hlisted
  · cases hlisted
  · exact ⟨routes, rfl, (ofMaps_lists hrun).2.1, Option.some.inj hlisted⟩

end Route
end OpenApi
