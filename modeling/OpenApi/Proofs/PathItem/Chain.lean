import Mathlib.Logic.Function.Iterate
import Mathlib.Tactic.Choose
import OpenApi.PathItem.Merged

/-!
# Chains of references without marks

What following references comes to when nothing stops it but the references themselves, for a
lookup that does not act: an end (`Leads`), a reference that leads nowhere (`Breaks`), or neither
(`Endless`). Exactly one of the three holds of a path item (`not_leads_iff`).

Following with marks stops earlier, at a mark that was met before.

* `leads_of_followBelow`: what it finds is the chain that following without marks leads through;
* `Leads.followBelow`: it finds that chain, if no two referrers in it that lead to different path
  items have the same mark, and the number of path items allowed is not less than the chain's.
-/

namespace OpenApi.PathItem

variable {lookup : Option (Lookup Id)} {here next : Located} {c c' : Chain}

/-! ## Following without marks -/

/-- The target of a path item's reference, read where the path item was found. -/
def Located.target? (here : Located) : Option Target :=
  here.item.reference.bind (Target.ofReference? here.origin)

/-- Where the reference of a path item leads. -/
def next? (lookup : Option (Lookup Id)) (here : Located) : Option Located :=
  here.target?.bind fun t => (t.find? lookup here.origin).run

/-- Following references leads through a chain to its end. -/
inductive Leads (lookup : Option (Lookup Id)) : Located → Chain → Prop
  | written {here : Located} : here.item.reference = none →
    Leads lookup here { referrers := [], target := here }
  | followed {here next : Located} {c : Chain} : next? lookup here = some next →
    Leads lookup next c → Leads lookup here (c.cons here)

/-- Following references comes to a reference that is malformed or has no target. -/
inductive Breaks (lookup : Option (Lookup Id)) : Located → Prop
  | nowhere {here : Located} : here.item.reference.isSome → next? lookup here = none →
    Breaks lookup here
  | followed {here next : Located} : next? lookup here = some next → Breaks lookup next →
    Breaks lookup here

/-- Following references never ends. -/
def Endless (lookup : Option (Lookup Id)) (here : Located) : Prop :=
  ∃ path : Nat → Located, path 0 = here ∧ ∀ n, next? lookup (path n) = some (path (n + 1))

theorem reference_isSome_of_next? (h : next? lookup here = some next) :
    here.item.reference.isSome := by
  cases hr : here.item.reference with
  | none => simp [next?, Located.target?, hr] at h
  | some _ => rfl

theorem Leads.unique (h : Leads lookup here c) (h' : Leads lookup here c') : c = c' := by
  induction h generalizing c' with
  | written hr =>
    cases h' with
    | written => rfl
    | followed hn => simpa [hr] using reference_isSome_of_next? hn
  | followed hn _ ih =>
    cases h' with
    | written hr => simpa [hr] using reference_isSome_of_next? hn
    | followed hn' hc =>
      rw [hn] at hn'
      cases hn'
      rw [ih hc]

theorem Leads.not_breaks (h : Leads lookup here c) : ¬ Breaks lookup here := by
  induction h with
  | written hr =>
    rintro (⟨hs, -⟩ | ⟨hn, -⟩)
    · simp [hr] at hs
    · simpa [hr] using reference_isSome_of_next? hn
  | followed hn _ ih =>
    rintro (⟨-, hn'⟩ | ⟨hn', hb⟩)
    · rw [hn] at hn'; cases hn'
    · rw [hn] at hn'; cases hn'
      exact ih hb

theorem Leads.not_endless (h : Leads lookup here c) : ¬ Endless lookup here := by
  induction h with
  | written hr =>
    rintro ⟨path, rfl, hp⟩
    simpa [hr] using reference_isSome_of_next? (hp 0)
  | followed hn _ ih =>
    rintro ⟨path, rfl, hp⟩
    have h1 := hp 0
    rw [hn] at h1
    cases h1
    exact ih ⟨fun n => path (n + 1), rfl, fun n => hp (n + 1)⟩

/-- A path item from which following references neither ends nor breaks leads to another one. -/
theorem exists_next? (hl : ∀ c, ¬ Leads lookup here c) (hb : ¬ Breaks lookup here) :
    ∃ next, next? lookup here = some next ∧ (∀ c, ¬ Leads lookup next c) ∧
      ¬ Breaks lookup next := by
  cases hr : here.item.reference with
  | none => exact absurd (.written hr) (hl _)
  | some reference =>
    cases hn : next? lookup here with
    | none => exact absurd (.nowhere (by rw [hr]; rfl) hn) hb
    | some next =>
      exact ⟨next, rfl, fun c hc => hl _ (.followed hn hc), fun h => hb (.followed hn h)⟩

theorem endless_of_not_leads (hl : ∀ c, ¬ Leads lookup here c) (hb : ¬ Breaks lookup here) :
    Endless lookup here := by
  let Stuck := { x : Located // (∀ c, ¬ Leads lookup x c) ∧ ¬ Breaks lookup x }
  have step (x : Stuck) : ∃ y : Stuck, next? lookup x.1 = some y.1 := by
    obtain ⟨y, hn, hy⟩ := exists_next? x.2.1 x.2.2
    exact ⟨⟨y, hy⟩, hn⟩
  choose f hf using step
  let path : Nat → Stuck := fun n => f^[n] ⟨here, hl, hb⟩
  refine ⟨fun n => (path n).1, rfl, fun n => ?_⟩
  rw [hf]
  simp only [path, Function.iterate_succ_apply']

/-- Where following references does not lead to an end, it breaks or never ends. -/
theorem not_leads_iff :
    (∀ c, ¬ Leads lookup here c) ↔ Breaks lookup here ∨ Endless lookup here := by
  refine ⟨fun hl => ?_, ?_⟩
  · by_cases hb : Breaks lookup here
    · exact .inl hb
    · exact .inr (endless_of_not_leads hl hb)
  · rintro (hb | he) c hc
    · exact hc.not_breaks hb
    · exact hc.not_endless he

/-! ## Following with marks -/

/-- What the reference of a path item is counted under. -/
def Located.mark? (here : Located) : Option (String × String) :=
  here.target?.map fun t => t.mark here.origin

theorem mark?_isSome_of_next? (h : next? lookup here = some next) : here.mark?.isSome := by
  obtain ⟨t, ht, -⟩ := Option.bind_eq_some_iff.mp h
  simp [Located.mark?, ht]

theorem followBelow_written (fuel : Nat) (visited : List (String × String))
    (h : here.item.reference = none) :
    (followBelow lookup (fuel + 1) visited here).run =
      some { referrers := [], target := here } := by
  rw [followBelow, h]
  rfl

theorem followBelow_followed (fuel : Nat) {visited : List (String × String)}
    {mark : String × String} (hn : next? lookup here = some next) (hm : here.mark? = some mark)
    (hv : mark ∉ visited) :
    (followBelow lookup (fuel + 1) visited here).run =
      (followBelow lookup fuel (mark :: visited) next).run.map (Chain.cons here) := by
  obtain ⟨t, ht, hf⟩ := Option.bind_eq_some_iff.mp hn
  obtain ⟨reference, hr, ht'⟩ := Option.bind_eq_some_iff.mp ht
  obtain rfl : t.mark here.origin = mark := by simpa [Located.mark?, ht] using hm
  have hf : t.find? lookup here.origin = some next := hf
  rw [followBelow, hr]
  simp only [ht', List.contains_eq_mem, hv, decide_false, Bool.false_eq_true, ↓reduceIte, hf]
  rfl

/-- A chain that is found with marks is the one that following without marks leads through. -/
theorem leads_of_followBelow {fuel : Nat} {visited : List (String × String)}
    (h : (followBelow lookup fuel visited here).run = some c) : Leads lookup here c := by
  induction fuel generalizing visited here c with
  | zero => cases h
  | succ fuel ih =>
    cases hr : here.item.reference with
    | none =>
      rw [followBelow_written fuel visited hr] at h
      cases h
      exact .written hr
    | some reference =>
      rw [followBelow, hr] at h
      simp only at h
      split at h
      · cases h
      · rename_i t ht
        split at h
        · cases h
        · cases hf : t.find? lookup here.origin with
          | none => rw [hf] at h; cases h
          | some next =>
            rw [hf] at h
            obtain ⟨c', hc, rfl⟩ := Option.map_eq_some_iff.mp h
            refine .followed ?_ (ih hc)
            simp only [next?, Located.target?, hr, Option.bind_some, ht]
            exact hf

/-! ### The path items of a chain -/

/-- The number of path items before the end of a chain. -/
abbrev Chain.length (c : Chain) : Nat := c.referrers.length

/-- The path items of a chain in order. -/
def Chain.items (c : Chain) : List Located := c.referrers ++ [c.target]

/-- From each path item of a chain, following references leads through a part of the chain. -/
theorem Leads.part (h : Leads lookup here c) {x : Located} (hx : x ∈ c.items) :
    ∃ c', Leads lookup x c' ∧ c'.length ≤ c.length := by
  induction h with
  | written hr =>
    obtain rfl : x = _ := by simpa [Chain.items] using hx
    exact ⟨_, .written hr, Nat.le_refl _⟩
  | @followed here next c hn hc ih =>
    rcases List.mem_cons.mp (show x ∈ here :: c.items from hx) with rfl | hx
    · exact ⟨_, .followed hn hc, Nat.le_refl _⟩
    · obtain ⟨c', hc', hle⟩ := ih hx
      exact ⟨c', hc', Nat.le_succ_of_le hle⟩

/-- No path item of a chain after the first leads to the second, so none is the first. -/
theorem Leads.next?_ne (hc : Leads lookup next c) {x : Located} (hx : x ∈ c.items) :
    next? lookup x ≠ some next := by
  intro hn
  obtain ⟨c', hc', hle⟩ := hc.part hx
  have := hc'.unique (.followed hn hc)
  rw [this] at hle
  simp only [Chain.length, Chain.cons, List.length_cons] at hle
  omega

theorem Leads.nodup_items (h : Leads lookup here c) : c.items.Nodup := by
  induction h with
  | written => simp [Chain.items]
  | @followed here next c hn hc ih =>
    show (here :: c.items).Nodup
    exact List.nodup_cons.mpr ⟨fun hm => hc.next?_ne hm hn, ih⟩

/-- What holds of the first path item and is kept by following holds along the chain. -/
theorem Leads.forall_items {P : Located → Prop}
    (step : ∀ {x y}, P x → next? lookup x = some y → P y) (h : Leads lookup here c)
    (h0 : P here) : ∀ x ∈ c.items, P x := by
  induction h with
  | written => simpa [Chain.items] using h0
  | @followed here next c hn _ ih =>
    show ∀ x ∈ here :: c.items, P x
    exact List.forall_mem_cons.mpr ⟨h0, ih (step h0 hn)⟩

/-- Marks are no obstacle to a chain in which equal marks lead to the same path item. -/
theorem Leads.followBelow {fuel : Nat} {visited : List (String × String)}
    (h : Leads lookup here c) (hfuel : c.length < fuel)
    (hmarks : ∀ x ∈ c.items, ∀ y ∈ c.items, ∀ x' y', next? lookup x = some x' →
      next? lookup y = some y' → x.mark? = y.mark? → x' = y')
    (hv : ∀ x ∈ c.items, ∀ x', next? lookup x = some x' → ∀ mark, x.mark? = some mark →
      mark ∉ visited) :
    (PathItem.followBelow lookup fuel visited here).run = some c := by
  induction h generalizing fuel visited with
  | written hr =>
    obtain ⟨fuel, rfl⟩ := Nat.exists_eq_succ_of_ne_zero (Nat.ne_zero_of_lt hfuel)
    exact followBelow_written fuel visited hr
  | @followed here next c hn hc ih =>
    obtain ⟨fuel, rfl⟩ := Nat.exists_eq_succ_of_ne_zero (Nat.ne_zero_of_lt hfuel)
    obtain ⟨mark, hm⟩ := Option.isSome_iff_exists.mp (mark?_isSome_of_next? hn)
    have hhere : here ∈ (c.cons here).items := List.mem_cons_self
    have hrest : ∀ x ∈ c.items, x ∈ (c.cons here).items := fun x hx => List.mem_cons_of_mem _ hx
    have hc' : (PathItem.followBelow lookup fuel (mark :: visited) next).run = some c := by
      refine ih (Nat.lt_of_succ_lt_succ hfuel)
        (fun x hx y hy => hmarks x (hrest x hx) y (hrest y hy)) fun x hx x' hx' m hmx hmem => ?_
      rcases List.mem_cons.mp hmem with rfl | hmem
      · -- A later path item with the same mark would lead back to the second one.
        have : x' = next := hmarks x (hrest x hx) here hhere x' next hx' hn (hmx.trans hm.symm)
        exact hc.next?_ne hx (this ▸ hx')
      · exact hv x (hrest x hx) x' hx' m hmx hmem
    rw [followBelow_followed fuel hn hm (hv here hhere next hn mark hm), hc']
    rfl

/-- A path item stands for what is found by following its references with marks. -/
theorem run_resolve (ctx : Context Id) (item : PathItem) :
    (resolve ctx item).run = (PathItem.followBelow ctx.lookup ctx.limit []
      { item, origin := ctx.origin }).run.map Merged.ofChain := rfl

end OpenApi.PathItem
