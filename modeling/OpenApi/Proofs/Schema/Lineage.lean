import OpenApi.Proofs.Schema.Forest

/-!
# Above and below a node

In a forest of schemas the nodes above a node form a chain, and each node that opens a resource has
the nodes below it up to the next such nodes in its resource.

* `Graph.Reaches.comparable`: of two nodes above the same node one is above the other;
* `Graph.lineage`, `Graph.owners`: the nodes above a node and itself, and those of them that open
  the resources around it;
* `Graph.Forest.getLast?_owners`: the innermost of these is the resource root.
-/

namespace OpenApi.Schema.Graph

variable {g : Graph} {a b c d n o p r : NodeId}

/-! ## Below a node -/

/-- A node is reached from itself, and with a node its subschemas. -/
inductive Reaches (g : Graph) (r : NodeId) : NodeId → Prop
  | refl : Reaches g r r
  | step {p c : NodeId} : Reaches g r p → c ∈ g.subschemas p → Reaches g r c

theorem Reaches.trans (h : g.Reaches a b) (h' : g.Reaches b c) : g.Reaches a c := by
  induction h' with
  | refl => exact h
  | step _ hc ih => exact ih.step hc

theorem Reaches.le (hf : Forest g) (h : g.Reaches a b) : b ≤ a := by
  induction h with
  | refl => exact Nat.le_refl a
  | step _ hc ih => exact Nat.le_trans (Nat.le_of_lt (hf.lt hc)) ih

/-- What reaches a node of the graph is one. -/
theorem Reaches.lt_size (h : g.Reaches a b) (hb : b < g.size) : a < g.size := by
  induction h with
  | refl => exact hb
  | step _ hc ih => exact ih (lt_size_of_mem_subschemas hc)

/-- Nothing but a node without parent itself reaches it. -/
theorem Reaches.eq_of_parent? (hf : Forest g) (h : g.Reaches a b) (hb : g.parent? b = none) :
    a = b := by
  cases h with
  | refl => rfl
  | step _ hc =>
    rw [hf.parent?_eq_some_iff.mpr hc] at hb
    cases hb

/-- What reaches a node other than itself reaches its parent. -/
theorem Reaches.parent (hf : Forest g) (h : g.Reaches a b) (hb : g.parent? b = some p)
    (hne : a ≠ b) : g.Reaches a p := by
  cases h with
  | refl => exact absurd rfl hne
  | step hr hc =>
    rw [hf.parent?_eq_some_iff.mpr hc] at hb
    cases hb
    exact hr

/-- Of two nodes above the same node one is above the other. -/
theorem Reaches.comparable (hf : Forest g) (ha : g.Reaches a n) (hb : g.Reaches b n) :
    g.Reaches a b ∨ g.Reaches b a := by
  induction ha with
  | refl => exact .inr hb
  | @step p c ha hc ih =>
    by_cases hbc : b = c
    · exact .inl (hbc ▸ ha.step hc)
    · exact ih (hb.parent hf (hf.parent?_eq_some_iff.mpr hc) hbc)

/-- Different subschemas of a node reach different nodes. -/
theorem Reaches.eq_of_siblings (hf : Forest g) (hc : c ∈ g.subschemas p) (hd : d ∈ g.subschemas p)
    (hcn : g.Reaches c n) (hdn : g.Reaches d n) : c = d := by
  have below : ∀ {c d}, c ∈ g.subschemas p → d ∈ g.subschemas p → g.Reaches c d → c = d := by
    intro c d hc hd h
    by_cases hne : c = d
    · exact hne
    · have hp : g.Reaches c p := h.parent hf (hf.parent?_eq_some_iff.mpr hd) hne
      exact absurd (hf.lt hc) (Nat.not_lt_of_le (hp.le hf))
  obtain h | h := hcn.comparable hf hdn
  · exact below hc hd h
  · exact (below hd hc h).symm

/-- A parent has a greater number, so one step less reaches beyond the last node. -/
theorem Forest.size_le_parent_add (hf : Forest g) (hn : g.parent? n = some p) {fuel : Nat}
    (h : g.size ≤ n + (fuel + 1)) : g.size ≤ p + fuel := by
  have hlt : n + 1 ≤ p := hf.lt (hf.parent?_eq_some_iff.mp hn)
  rw [Nat.add_comm fuel 1, ← Nat.add_assoc] at h
  exact Nat.le_trans h (Nat.add_le_add_right hlt fuel)

/-- Climbing from parent to parent ends at a node without one. -/
theorem Forest.upward (hf : Forest g) {motive : NodeId → Prop}
    (top : ∀ n, g.parent? n = none → motive n)
    (below : ∀ n p, g.parent? n = some p → motive p → motive n) (n : NodeId) : motive n := by
  have climb : ∀ fuel n, g.size ≤ n + fuel → motive n := by
    intro fuel
    induction fuel with
    | zero => exact fun n hn => top n (hf.parent?_eq_none hn)
    | succ fuel ih =>
      intro n hn
      cases hp : g.parent? n with
      | none => exact top n hp
      | some p => exact below n p hp (ih p (hf.size_le_parent_add hp hn))
  exact climb g.size n (Nat.le_add_left _ _)

/-! ## The lineage of a node -/

/-- The nodes above a node, as far as the given number of steps, and the node. -/
def lineageFrom (g : Graph) : Nat → NodeId → List NodeId
  | 0, id => [id]
  | fuel + 1, id =>
    (match g.parent? id with
      | some parent => g.lineageFrom fuel parent
      | none => []) ++ [id]

/-- The nodes above a node and the node, topmost first. -/
def lineage (g : Graph) (id : NodeId) : List NodeId := g.lineageFrom g.size id

/-- The node above a node that has no parent. -/
def topmost (g : Graph) (id : NodeId) : NodeId := (g.lineage id).headD id

/-- The nodes that open the resources around a node, outermost first: the topmost node, and below it
those with an `$id`. -/
def owners (g : Graph) (id : NodeId) : List NodeId :=
  match g.lineage id with
  | [] => []
  | top :: below => top :: below.filter g.opensResource

theorem Forest.lineageFrom_congr (hf : Forest g) (fuel fuel' : Nat) (n : NodeId)
    (h : g.size ≤ n + fuel) (h' : g.size ≤ n + fuel') :
    g.lineageFrom fuel n = g.lineageFrom fuel' n := by
  induction fuel generalizing n fuel' with
  | zero =>
    cases fuel' with
    | zero => rfl
    | succ =>
      have htop : g.parent? n = none := hf.parent?_eq_none h
      rw [lineageFrom, lineageFrom, htop, List.nil_append]
  | succ fuel ih =>
    cases fuel' with
    | zero =>
      have htop : g.parent? n = none := hf.parent?_eq_none h'
      rw [lineageFrom, lineageFrom, htop, List.nil_append]
    | succ fuel' =>
      rw [lineageFrom, lineageFrom]
      cases hp : g.parent? n with
      | none => rfl
      | some p =>
        have hle := hf.size_le_parent_add hp h
        exact congrArg (· ++ [n]) (ih fuel' p hle (hf.size_le_parent_add hp h'))

theorem lineage_of_top (hn : g.parent? n = none) : g.lineage n = [n] := by
  rw [lineage]
  cases g.size with
  | zero => rfl
  | succ => rw [lineageFrom, hn, List.nil_append]

theorem Forest.lineage_of_below (hf : Forest g) (hn : g.parent? n = some p) :
    g.lineage n = g.lineage p ++ [n] := by
  have hle : g.size ≤ n + (g.size + 1) := Nat.le_trans (Nat.le_succ _) (Nat.le_add_left _ _)
  rw [lineage, hf.lineageFrom_congr g.size (g.size + 1) n (Nat.le_add_left _ _) hle, lineageFrom,
    hn, lineage]

theorem Forest.lineage_ne_nil (hf : Forest g) (n : NodeId) : g.lineage n ≠ [] := by
  cases hp : g.parent? n with
  | none => simp [lineage_of_top hp]
  | some p => simp [hf.lineage_of_below hp]

theorem topmost_of_top (hn : g.parent? n = none) : g.topmost n = n := by
  rw [topmost, lineage_of_top hn, List.headD_cons]

theorem Forest.topmost_of_below (hf : Forest g) (hn : g.parent? n = some p) :
    g.topmost n = g.topmost p := by
  rw [topmost, topmost, hf.lineage_of_below hn]
  cases hl : g.lineage p with
  | nil => exact absurd hl (hf.lineage_ne_nil p)
  | cons top below => rfl

theorem Forest.reaches_topmost (hf : Forest g) (n : NodeId) : g.Reaches (g.topmost n) n := by
  induction n using hf.upward with
  | top n hn =>
    rw [topmost_of_top hn]
    exact .refl
  | below n p hn ih =>
    rw [hf.topmost_of_below hn]
    exact ih.step (hf.parent?_eq_some_iff.mp hn)

/-! ## The resources around a node -/

theorem owners_of_top (hn : g.parent? n = none) : g.owners n = [n] := by
  rw [owners, lineage_of_top hn]
  rfl

theorem Forest.owners_of_below (hf : Forest g) (hn : g.parent? n = some p) :
    g.owners n = g.owners p ++ if g.opensResource n then [n] else [] := by
  rw [owners, owners, hf.lineage_of_below hn]
  cases hl : g.lineage p with
  | nil => exact absurd hl (hf.lineage_ne_nil p)
  | cons top below =>
    simp only [List.cons_append, List.filter_append, List.filter_cons, List.filter_nil]

theorem Forest.reaches_of_mem_owners (hf : Forest g) (ho : o ∈ g.owners n) : g.Reaches o n := by
  induction n using hf.upward with
  | top n hn =>
    rw [owners_of_top hn, List.mem_singleton] at ho
    exact ho ▸ .refl
  | below n p hn ih =>
    rw [hf.owners_of_below hn, List.mem_append] at ho
    obtain ho | ho := ho
    · exact (ih ho).step (hf.parent?_eq_some_iff.mp hn)
    · split at ho
      · rw [List.mem_singleton] at ho
        exact ho ▸ .refl
      · cases ho

/-- An owner opens a resource or has no parent. -/
theorem Forest.opens_of_mem_owners (hf : Forest g) (ho : o ∈ g.owners n) :
    g.opensResource o = true ∨ g.parent? o = none := by
  induction n using hf.upward with
  | top n hn =>
    rw [owners_of_top hn, List.mem_singleton] at ho
    exact .inr (ho ▸ hn)
  | below n p hn ih =>
    rw [hf.owners_of_below hn, List.mem_append] at ho
    obtain ho | ho := ho
    · exact ih ho
    · split at ho
      next hopen =>
        rw [List.mem_singleton] at ho
        exact .inl (ho ▸ hopen)
      next => cases ho

/-- Climbing to the resource root ends at the innermost owner. -/
theorem Forest.getLast?_owners (hf : Forest g) (n : NodeId) :
    (g.owners n).getLast? = some (g.resourceRoot n) := by
  have climb : ∀ fuel n, g.size ≤ n + fuel → (g.owners n).getLast? = some (g.climb fuel n) := by
    intro fuel
    induction fuel with
    | zero =>
      intro n hn
      have htop : g.parent? n = none := hf.parent?_eq_none hn
      rw [owners_of_top htop]
      rfl
    | succ fuel ih =>
      intro n hn
      rw [Graph.climb]
      cases hp : g.parent? n with
      | none =>
        rw [owners_of_top hp]
        split <;> rfl
      | some p =>
        rw [hf.owners_of_below hp]
        split
        · rw [List.getLast?_concat]
        · rw [List.append_nil]
          exact ih p (hf.size_le_parent_add hp hn)
  exact climb g.size n (Nat.le_add_left _ _)

theorem Forest.reaches_resourceRoot (hf : Forest g) (n : NodeId) :
    g.Reaches (g.resourceRoot n) n :=
  hf.reaches_of_mem_owners (List.mem_of_getLast? (hf.getLast?_owners n))

/-- An owner is the root of its resource. -/
theorem Forest.resourceRoot_of_opens (hf : Forest g)
    (h : g.opensResource n = true ∨ g.parent? n = none) : g.resourceRoot n = n := by
  have hlast := hf.getLast?_owners n
  cases hp : g.parent? n with
  | none =>
    rw [owners_of_top hp, List.getLast?_singleton] at hlast
    exact (Option.some.inj hlast).symm
  | some p =>
    have hopen : g.opensResource n = true := h.resolve_right (by simp [hp])
    rw [hf.owners_of_below hp, if_pos hopen, List.getLast?_concat] at hlast
    exact (Option.some.inj hlast).symm

/-- Any other node is in the resource of its parent. -/
theorem Forest.resourceRoot_of_below (hf : Forest g) (hn : g.parent? n = some p)
    (h : g.opensResource n = false) : g.resourceRoot n = g.resourceRoot p := by
  have hlast := hf.getLast?_owners n
  rw [hf.owners_of_below hn, h, if_neg Bool.false_ne_true, List.append_nil,
    hf.getLast?_owners p] at hlast
  exact (Option.some.inj hlast).symm

end OpenApi.Schema.Graph
