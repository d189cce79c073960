import OpenApi.PathItem.Merged

/-!
# Resolvers that fail

Two resolvers may each act on a state of its own. They answer alike (`AnswerAlike`) if from related
states they find the same, where one may fail and the other find nothing, and leave related states.

* `Simulates.bind`: of runs that agree in what they give, those in sequence agree;
* `simulates_followBelow`, `simulates_resolve`: so do the chains, and the path items that they stand
  for, under resolvers that answer alike.
-/

namespace OpenApi

variable {σ τ : Type} {Q : σ → τ → Prop} {α β : Type}

/-! ## Runs from related states -/

/-- From related states both runs give the same, and leave related states. -/
def Simulates (Q : σ → τ → Prop) (x : StateM σ α) (y : StateM τ α) : Prop :=
  ∀ s t, Q s t → ∃ a s' t', x.run s = (a, s') ∧ y.run t = (a, t') ∧ Q s' t'

namespace Simulates

theorem pure (a : α) : Simulates Q (Pure.pure a) (Pure.pure a) :=
  fun s t h => ⟨a, s, t, rfl, rfl, h⟩

theorem bind {x : StateM σ α} {y : StateM τ α} {f : α → StateM σ β} {g : α → StateM τ β}
    (hx : Simulates Q x y) (hf : ∀ a, Simulates Q (f a) (g a)) :
    Simulates Q (x >>= f) (y >>= g) := by
  intro s t h
  obtain ⟨a, s', t', hs, ht, h'⟩ := hx s t h
  obtain ⟨b, s'', t'', hs', ht', h''⟩ := hf a s' t' h'
  refine ⟨b, s'', t'', ?_, ?_, h''⟩
  · rw [StateT.run_bind, hs]
    exact hs'
  · rw [StateT.run_bind, ht]
    exact ht'

theorem map {x : StateM σ α} {y : StateM τ α} (f : α → β) (h : Simulates Q x y) :
    Simulates Q (do return f (← x)) (do return f (← y)) :=
  h.bind fun a => .pure (f a)

end Simulates

namespace PathItem

/-! ## Answers -/

/-- The same is found, or nothing is, whether by a failure or not. -/
inductive SameAnswer {ε δ : Type} :
    Except ε (Option External) → Except δ (Option External) → Prop
  | found (found : External) : SameAnswer (.ok (some found)) (.ok (some found))
  | missed : SameAnswer (.ok none) (.ok none)
  | failed (e : ε) : SameAnswer (.error e) (.ok none)
  | failed' (e : δ) : SameAnswer (.ok none) (.error e)
  | failedBoth (e : ε) (e' : δ) : SameAnswer (.error e) (.error e')

theorem SameAnswer.found?_eq {ε δ : Type} {a : Except ε (Option External)}
    {b : Except δ (Option External)} (h : SameAnswer a b) :
    Resolver.found? a = Resolver.found? b := by
  cases h <;> rfl

/-- What a resolver answers; without one nothing is found. -/
def ask {ε : Type} {m : Type → Type} [Monad m] (r : Option (Resolver ε m))
    (document key : String) : m (Except ε (Option External)) :=
  match r with
  | none => return .ok none
  | some r => r document key

/-- From related states both answers are the same, and related states are left. -/
def AnswerAlike {ε δ : Type} (Q : σ → τ → Prop) (r : Option (Resolver ε (StateM σ)))
    (r' : Option (Resolver δ (StateM τ))) : Prop :=
  ∀ s t, Q s t → ∀ document key, ∃ a b s' t', (ask r document key).run s = (a, s') ∧
    (ask r' document key).run t = (b, t') ∧ SameAnswer a b ∧ Q s' t'

/-- What a lookup finds; without one nothing is found. -/
def outside {m : Type → Type} [Monad m] (lookup : Option (Lookup m)) (document key : String) :
    m (Option External) :=
  match lookup with
  | none => return none
  | some lookup => lookup document key

/-- Lookups of resolvers that answer alike find the same. -/
theorem AnswerAlike.simulates {ε δ : Type} {r : Option (Resolver ε (StateM σ))}
    {r' : Option (Resolver δ (StateM τ))} (h : AnswerAlike Q r r') (document key : String) :
    Simulates Q (outside (r.map Resolver.lookup) document key)
      (outside (r'.map Resolver.lookup) document key) := by
  have houtside {ε σ : Type} (r : Option (Resolver ε (StateM σ))) :
      outside (r.map Resolver.lookup) document key =
        (do return Resolver.found? (← ask r document key)) := by
    cases r <;> rfl
  intro s t hQ
  obtain ⟨a, b, s', t', ha, hb, hsame, hQ'⟩ := h s t hQ document key
  refine ⟨Resolver.found? a, s', t', ?_, ?_, hQ'⟩
  · rw [houtside, StateT.run_bind, ha]
    rfl
  · rw [houtside, StateT.run_bind, hb, hsame.found?_eq]
    rfl

/-! ## Chains -/

theorem Target.find?_eq {m : Type → Type} [Monad m] [LawfulMonad m] (t : Target)
    (lookup : Option (Lookup m)) (o : Origin) :
    t.find? lookup o =
      match t.local? o, t.document with
      | some found, _ => pure (some found)
      | none, some document => do
        return (← outside lookup document t.key).map (External.located · document)
      | none, none => pure none := by
  rw [find?.eq_def]
  cases t.local? o <;> cases t.document <;> cases lookup <;> simp [outside]

variable {lookup : Option (Lookup (StateM σ))} {lookup' : Option (Lookup (StateM τ))}

section

variable (hl : ∀ document key, Simulates Q (outside lookup document key)
  (outside lookup' document key))
include hl

theorem simulates_find? (t : Target) (o : Origin) :
    Simulates Q (t.find? lookup o) (t.find? lookup' o) := by
  rw [Target.find?_eq, Target.find?_eq]
  cases t.local? o with
  | some found => exact .pure _
  | none =>
    cases t.document with
    | some document => exact (hl document t.key).map _
    | none => exact .pure _

/-- A chain is followed in the same way, whatever the marks before it. -/
theorem simulates_followBelow (fuel : Nat) (visited : List (String × String)) (here : Located) :
    Simulates Q (followBelow lookup fuel visited here) (followBelow lookup' fuel visited here) := by
  induction fuel generalizing visited here with
  | zero => exact .pure none
  | succ fuel ih =>
    rw [followBelow, followBelow]
    cases here.item.reference with
    | none => exact .pure _
    | some reference =>
      cases ht : Target.ofReference? here.origin reference with
      | none =>
        simp only [ht]
        exact .pure none
      | some t =>
        simp only [ht]
        split
        · exact .pure none
        · refine (simulates_find? hl t here.origin).bind fun next => ?_
          cases next with
          | none => exact .pure none
          | some next => exact (ih _ next).map _

theorem simulates_resolve (o : Origin) (limit : Nat) (item : PathItem) :
    Simulates Q (resolve { origin := o, lookup, limit } item)
      (resolve { origin := o, lookup := lookup', limit } item) :=
  (simulates_followBelow hl limit [] _).map _

end

end PathItem

end OpenApi
