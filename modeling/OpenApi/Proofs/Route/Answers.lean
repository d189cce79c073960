import OpenApi.Proofs.PathItem.AcrossDocuments
import OpenApi.Proofs.Route.Listing

/-!
# Listing through a lookup with known answers

A lookup may act, and still give what another one gives that does not (`Gives`): whatever it did
before, and without leaving the states in which it does. If it does so for everything that is asked
on the way, a listing through the one gives what it gives through the other.

* `PathItem.gives_followBelow`: a chain is followed to the same end, as long as it keeps to path
  items from which the answers are known;
* `Route.gives_ofMaps`: the same routes are listed, or the same fault is found.
-/

namespace OpenApi

variable {σ τ α β ε : Type} {I : σ → τ → Prop}

/-- From all states of a kind a run gives a value and leaves states of that kind. -/
def Gives (I : σ → τ → Prop) (x : StateT σ (StateM τ) α) (a : α) : Prop :=
  ∀ s t, I s t → ∃ s' t', (x.run s).run t = ((a, s'), t') ∧ I s' t'

namespace Gives

theorem pure (a : α) : Gives I (Pure.pure a) a :=
  fun s t h => ⟨s, t, rfl, h⟩

theorem bind {x : StateT σ (StateM τ) α} {a : α} {f : α → StateT σ (StateM τ) β} {b : β}
    (hx : Gives I x a) (hf : Gives I (f a) b) : Gives I (x >>= f) b := by
  intro s t h
  obtain ⟨s', t', hs, h'⟩ := hx s t h
  obtain ⟨s'', t'', hs', h''⟩ := hf s' t' h'
  refine ⟨s'', t'', ?_, h''⟩
  rw [StateT.run_bind, StateT.run_bind, hs]
  exact hs'

theorem map {x : StateT σ (StateM τ) α} {a : α} (f : α → β) (h : Gives I x a) :
    Gives I (do return f (← x)) (f a) :=
  h.bind (.pure _)

theorem liftM {x : StateT σ (StateM τ) α} {y : Id α} (h : Gives I x y.run) :
    Gives I (liftM x : ExceptT ε (StateT σ (StateM τ)) α).run
      (liftM y : ExceptT ε Id α).run.run := by
  rw [ExceptT.run_liftM, ← bind_pure_comp]
  exact h.bind (.pure _)

theorem bindExcept {x : ExceptT ε (StateT σ (StateM τ)) α} {y : ExceptT ε Id α}
    {f : α → ExceptT ε (StateT σ (StateM τ)) β} {g : α → ExceptT ε Id β}
    (hx : Gives I x.run y.run.run) (hf : ∀ a, Gives I (f a).run (g a).run.run) :
    Gives I (x >>= f).run (y >>= g).run.run := by
  rw [ExceptT.run_bind, ExceptT.run_bind, Id.run_bind]
  refine hx.bind ?_
  cases y.run.run with
  | ok a => exact hf a
  | error e => exact .pure (Except.error e)

end Gives

namespace PathItem

variable {lookup : Lookup (StateT σ (StateM τ))} {answers : Lookup Id}

/-! ## Chains -/

theorem gives_find? {t : Target} (o : Origin)
    (h : ∀ document, t.document = some document →
      Gives I (lookup document t.key) (answers document t.key).run) :
    Gives I (t.find? (some lookup) o) (t.find? (some answers) o).run := by
  rw [Target.find?.eq_def, Target.find?.eq_def]
  cases t.local? o with
  | some found => exact .pure _
  | none =>
    cases hd : t.document with
    | some document => exact (h document hd).map _
    | none => exact .pure _

/-- Path items from which the answers to all that is asked are known. -/
structure Answered (I : σ → τ → Prop) (lookup : Lookup (StateT σ (StateM τ)))
    (answers : Lookup Id) (P : Located → Prop) : Prop where
  asked {here : Located} {t : Target} {document : String} : P here → here.target? = some t →
    t.document = some document → Gives I (lookup document t.key) (answers document t.key).run
  kept {here next : Located} : P here → next? (some answers) here = some next → P next

variable {P : Located → Prop} (ha : Answered I lookup answers P)
include ha

/-- A chain is followed as the answers tell, whatever the marks before it. -/
theorem gives_followBelow (fuel : Nat) (visited : List (String × String)) {here : Located}
    (hP : P here) : Gives I (followBelow (some lookup) fuel visited here)
      (followBelow (some answers) fuel visited here).run := by
  induction fuel generalizing visited here with
  | zero => exact .pure none
  | succ fuel ih =>
    rw [followBelow, followBelow]
    cases hr : here.item.reference with
    | none => exact .pure _
    | some reference =>
      cases ht : Target.ofReference? here.origin reference with
      | none =>
        simp only [ht]
        exact .pure none
      | some t =>
        simp only [ht]
        have htarget : here.target? = some t := by
          rw [Located.target?, hr, Option.bind_some, ht]
        split
        · exact .pure none
        · rw [Id.run_bind]
          refine (gives_find? here.origin fun _ => ha.asked hP htarget).bind ?_
          cases hn : (t.find? (some answers) here.origin).run with
          | none => exact .pure none
          | some next =>
            have hnext : next? (some answers) here = some next := by
              rw [next?, htarget, Option.bind_some, hn]
            exact (ih _ (ha.kept hP hnext)).map _

theorem gives_resolve (o : Origin) (limit : Nat) {item : PathItem} (hP : P { item, origin := o }) :
    Gives I (resolve { origin := o, lookup := some lookup, limit } item)
      (resolve { origin := o, lookup := some answers, limit } item).run :=
  (gives_followBelow ha limit [] hP).map _

end PathItem

namespace Route

open Parameter

variable {kind : Kind} {security : Option (List Json.Value)}
  {ctx : PathItem.Context (StateT σ (StateM τ))} {ctx' : PathItem.Context Id}

/-! ## Listings -/

theorem gives_ofItems {items : List (String × PathItem)}
    (h : ∀ x ∈ items, Gives I (PathItem.resolve ctx x.2) (PathItem.resolve ctx' x.2).run) :
    Gives I (ofItems kind security ctx items).run (ofItems kind security ctx' items).run.run := by
  induction items with
  | nil => exact .pure _
  | cons x items ih =>
    obtain ⟨path, item⟩ := x
    have hrest := ih fun x hx => h x (List.mem_cons_of_mem _ hx)
    rw [ofItems, ofItems]
    refine (h _ List.mem_cons_self).liftM.bindExcept fun found => ?_
    cases found with
    | none =>
      exact (Gives.pure (Except.ok [])).bindExcept fun _ => hrest.bindExcept fun _ => .pure _
    | some container =>
      have hhere : Gives I (ExceptT.mk (Pure.pure (ofMerged path kind security container))).run
        (ExceptT.mk (Pure.pure (ofMerged path kind security container) : Id _)).run.run := .pure _
      exact hhere.bindExcept fun _ => hrest.bindExcept fun _ => .pure _

theorem gives_ofMaps {paths : PathMap} {webhooks : Option PathMap}
    (h : ∀ x ∈ listedItems paths webhooks,
      Gives I (PathItem.resolve ctx x.2.2) (PathItem.resolve ctx' x.2.2).run) :
    Gives I (ofMaps paths webhooks security ctx).run
      (ofMaps paths webhooks security ctx').run.run := by
  rw [ofMaps_eq, ofMaps_eq]
  refine (gives_ofItems fun x hx => ?_).bindExcept fun _ =>
    (gives_ofItems fun x hx => ?_).bindExcept fun _ => .pure _
  · exact h (.path, x) (List.mem_append_left _ (List.mem_map_of_mem hx))
  · exact h (.webhook, x) (List.mem_append_right _ (List.mem_map_of_mem hx))

end Route

end OpenApi
