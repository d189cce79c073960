import Mathlib.Data.List.Nodup
import OpenApi.Parameter.Listing
import OpenApi.Proofs.Parameter.Acceptance

/-!
# Lists of parameters

What a list of parameters is when it is resolved (`Listed`), and what merging does with the list of
a path item and that of an operation (`Combines`): the keys of the first stay where they are, each
with the operation's parameter if there is one, and the other parameters of the operation follow.

* `resolveAfter_eq_ok_iff`: which definitions are resolved, and to what;
* `resolveAfter_eq_error_iff`: which are not, and for what;
* `listed_of_resolveAll`, `Listed.merge`: resolving and merging give lists of that kind;
* `combines_merge`: merging combines two lists.
-/

namespace OpenApi.Parameter

variable {c : Components} {o : Origin} {common own ps : List Resolved}

/-! ## Resolving -/

/-- What identifies a definition in a list. -/
def Definition.key (d : Definition) : Location × String := (d.location, d.name)

/-- A resolved definition keeps its key, and is required in a path. -/
theorem key_of_resolve {d : Definition} {p : Resolved} (h : d.resolve c = .ok p) :
    p.key = d.key ∧ (p.location = .path → p.required = true) := by
  obtain ⟨payload, -, h⟩ := bind_eq_ok_iff.mp (resolveFields_of_resolve h)
  obtain ⟨-, -, h⟩ := bind_eq_ok_iff.mp h
  obtain ⟨-, -, h⟩ := bind_eq_ok_iff.mp h
  obtain ⟨-, -, h⟩ := bind_eq_ok_iff.mp h
  obtain ⟨-, -, h⟩ := bind_eq_ok_iff.mp h
  cases h
  exact ⟨rfl, fun hpath => by rw [show d.location = .path from hpath]; rfl⟩

/-- What is wrong with a definition after others: it has a key of theirs, or else it is refused
itself. -/
def Definition.WrongAfter (c : Components) (seen : List (Location × String)) (d : Definition)
    (e : Invalid) : Prop :=
  d.key ∈ seen ∧ e = { name := d.name, fault := .declaredTwice d.location } ∨
    d.key ∉ seen ∧ d.resolve c = .error e

section

variable {seen : List (Location × String)} {d : Definition} {ds : List Definition} {e : Invalid}

theorem Definition.wrongAfter_congr {seen' : List (Location × String)}
    (h : ∀ key, key ∈ seen ↔ key ∈ seen') : d.WrongAfter c seen e ↔ d.WrongAfter c seen' e := by
  rw [WrongAfter, WrongAfter, h]

theorem resolveAfter_of_mem (h : d.key ∈ seen) : resolveAfter c seen (d :: ds) =
    .error { name := d.name, fault := .declaredTwice d.location } :=
  if_pos (List.contains_iff_mem.mpr h)

theorem resolveAfter_of_notMem (h : d.key ∉ seen) : resolveAfter c seen (d :: ds) =
    d.resolve c >>= fun p => resolveAfter c (d.key :: seen) ds >>= fun ps => .ok (p :: ps) :=
  if_neg fun hmem => h (List.contains_iff_mem.mp hmem)

theorem resolveAfter_cons_eq_ok_iff : resolveAfter c seen (d :: ds) = .ok ps ↔
    d.key ∉ seen ∧ ∃ p ps', d.resolve c = .ok p ∧ resolveAfter c (d.key :: seen) ds = .ok ps' ∧
      ps = p :: ps' := by
  by_cases hseen : d.key ∈ seen
  · rw [resolveAfter_of_mem hseen]
    simp [hseen]
  · rw [resolveAfter_of_notMem hseen]
    simp [bind_eq_ok_iff, hseen, @eq_comm _ _ ps]

theorem resolveAfter_cons_eq_error_iff : resolveAfter c seen (d :: ds) = .error e ↔
    d.WrongAfter c seen e ∨ d.key ∉ seen ∧ ∃ p, d.resolve c = .ok p ∧
      resolveAfter c (d.key :: seen) ds = .error e := by
  by_cases hseen : d.key ∈ seen
  · rw [resolveAfter_of_mem hseen]
    simp [Definition.WrongAfter, hseen, eq_comm]
  · rw [resolveAfter_of_notMem hseen]
    simp [Definition.WrongAfter, bind_eq_error_iff, hseen]

/-- Definitions are resolved one by one, if no key occurs twice. -/
theorem resolveAfter_eq_ok_iff : resolveAfter c seen ds = .ok ps ↔
    (∀ d ∈ ds, d.key ∉ seen) ∧ (ds.map Definition.key).Nodup ∧
      List.Forall₂ (fun d p => d.resolve c = .ok p) ds ps := by
  induction ds generalizing seen ps with
  | nil => simp [resolveAfter, eq_comm]
  | cons d ds ih =>
    have hlater : (∀ d' ∈ ds, d'.key ∉ d.key :: seen) ↔
        (∀ d' ∈ ds, d'.key ∉ seen) ∧ d.key ∉ ds.map Definition.key := by
      simp only [List.mem_cons, not_or, List.mem_map, not_exists, not_and]
      exact ⟨fun h => ⟨fun d' hd => (h d' hd).2, fun d' hd => (h d' hd).1⟩,
        fun h d' hd => ⟨h.2 d' hd, h.1 d' hd⟩⟩
    simp only [resolveAfter_cons_eq_ok_iff, ih, hlater, List.forall_mem_cons, List.map_cons,
      List.nodup_cons, List.forall₂_cons_left_iff]
    constructor
    · rintro ⟨hd, p, ps', hp, ⟨⟨hseen, hnew⟩, hn, hps⟩, rfl⟩
      exact ⟨⟨hd, hseen⟩, ⟨hnew, hn⟩, p, ps', hp, hps, rfl⟩
    · rintro ⟨⟨hd, hseen⟩, ⟨hnew, hn⟩, p, ps', hp, hps, rfl⟩
      exact ⟨hd, p, ps', hp, ⟨⟨hseen, hnew⟩, hn, hps⟩, rfl⟩

/-- Definitions are refused for the first with which something is wrong. -/
theorem resolveAfter_eq_error_iff : resolveAfter c seen ds = .error e ↔
    ∃ before d after, ds = before ++ d :: after ∧ (∃ ps, resolveAfter c seen before = .ok ps) ∧
      d.WrongAfter c (before.map Definition.key ++ seen) e := by
  induction ds generalizing seen with
  | nil => simp [resolveAfter]
  | cons d ds ih =>
    have hlater : ∀ {before : List Definition} {d' : Definition},
        d'.WrongAfter c (before.map Definition.key ++ d.key :: seen) e ↔
          d'.WrongAfter c ((d :: before).map Definition.key ++ seen) e := fun {before _} =>
      Definition.wrongAfter_congr fun key => by simp [or_left_comm]
    rw [resolveAfter_cons_eq_error_iff]
    constructor
    · rintro (hwrong | ⟨hseen, p, hp, h⟩)
      · exact ⟨[], d, ds, rfl, ⟨[], rfl⟩, hwrong⟩
      · obtain ⟨before, d', after, rfl, ⟨ps, hps⟩, hwrong⟩ := ih.mp h
        have hbefore : resolveAfter c seen (d :: before) = .ok (p :: ps) :=
          resolveAfter_cons_eq_ok_iff.mpr ⟨hseen, p, ps, hp, hps, rfl⟩
        exact ⟨d :: before, d', after, rfl, ⟨_, hbefore⟩, hlater.mp hwrong⟩
    · rintro ⟨before, d', after, hds, ⟨ps, hps⟩, hwrong⟩
      cases before with
      | nil =>
        cases hds
        exact .inl hwrong
      | cons _ before =>
        cases hds
        obtain ⟨hseen, p, ps', hp, hps, -⟩ := resolveAfter_cons_eq_ok_iff.mp hps
        exact .inr ⟨hseen, p, hp, ih.mpr ⟨before, d', after, rfl, ⟨ps', hps⟩, hlater.mpr hwrong⟩⟩

end

/-- A list of parameters of one operation, as resolving leaves it: no key occurs twice, parameters
of the path are required, and headers that are described elsewhere are not there. -/
structure Listed (ps : List Resolved) : Prop where
  distinct : (ps.map Resolved.key).Nodup
  required : ∀ p ∈ ps, p.location = .path → p.required = true
  counted : ∀ p ∈ ps, p.location = .header →
    Text.asciiLower p.name ∉ ["accept", "content-type", "authorization"]

theorem listed_of_resolveAll {entries : List Entry} (h : resolveAll o entries = .ok ps) :
    Listed ps := by
  obtain ⟨-, hdistinct, hresolved⟩ := resolveAfter_eq_ok_iff.mp h
  have hkeys : ps.map Resolved.key = (definitions o entries).map Definition.key :=
    map_eq_of_forall₂ hresolved fun _ _ hp => (key_of_resolve hp).1
  refine ⟨hkeys ▸ hdistinct, fun p hp => ?_, fun p hp hheader hname => ?_⟩
  · obtain ⟨d, -, hd⟩ := exists_of_mem_forall₂ hresolved hp
    exact (key_of_resolve hd).2
  · obtain ⟨d, hd, hp⟩ := exists_of_mem_forall₂ hresolved hp
    obtain ⟨hlocation, hdname⟩ := Prod.mk.inj (key_of_resolve hp).1
    have hcounts : d.isIgnored = false := by simpa using (List.mem_filter.mp hd).2
    have hignored : d.isIgnored = true := by
      rw [Definition.isIgnored, ← hlocation, ← hdname, hheader, Bool.and_eq_true]
      exact ⟨rfl, by simpa [ignoredHeaders] using hname⟩
    exact absurd hignored (by rw [hcounts]; exact Bool.false_ne_true)

/-! ## Merging -/

/-- The parameter with the key of another, or the other. -/
def inPlaceOf (own : List Resolved) (p : Resolved) : Resolved :=
  (own.find? (·.key = p.key)).getD p

theorem inPlaceOf_cons (p : Resolved) (own : List Resolved) (q : Resolved) :
    inPlaceOf (p :: own) q = if q.key = p.key then p else inPlaceOf own q := by
  rw [inPlaceOf, List.find?_cons]
  by_cases h : q.key = p.key
  · simp [h]
  · simp [h, Ne.symm h, inPlaceOf]

theorem inPlaceOf_of_notMem {p : Resolved} (h : p.key ∉ own.map Resolved.key) :
    inPlaceOf own p = p := by
  rw [inPlaceOf, List.find?_eq_none.mpr, Option.getD_none]
  intro q hq he
  exact h (List.mem_map.mpr ⟨q, hq, decide_eq_true_iff.mp he⟩)

/-- A parameter is in its own place, or in that of one with its key. -/
theorem inPlaceOf_eq_or (own : List Resolved) (p : Resolved) :
    inPlaceOf own p = p ∨ inPlaceOf own p ∈ own ∧ (inPlaceOf own p).key = p.key := by
  rw [inPlaceOf]
  cases h : own.find? (·.key = p.key) with
  | none => exact .inl rfl
  | some q =>
    have hkey : q.key = p.key := by simpa using List.find?_some h
    exact .inr ⟨List.mem_of_find?_eq_some h, hkey⟩

theorem key_inPlaceOf (own : List Resolved) (p : Resolved) : (inPlaceOf own p).key = p.key :=
  (inPlaceOf_eq_or own p).elim (congrArg Resolved.key) And.right

theorem inPlaceOf_of_mem (ho : (own.map Resolved.key).Nodup) {p q : Resolved} (hq : q ∈ own)
    (h : q.key = p.key) : inPlaceOf own p = q := by
  induction own with
  | nil => cases hq
  | cons q' own ih =>
    rw [List.map_cons, List.nodup_cons] at ho
    rw [inPlaceOf_cons]
    rcases List.mem_cons.mp hq with rfl | hq
    · rw [if_pos h.symm]
    · have hne : p.key ≠ q'.key := fun he => ho.1 (List.mem_map.mpr ⟨q, hq, h.trans he⟩)
      rw [if_neg hne, ih ho.2 hq]

theorem put_of_mem {p : Resolved} (hn : (ps.map Resolved.key).Nodup)
    (h : p.key ∈ ps.map Resolved.key) :
    put p ps = ps.map fun q => if q.key = p.key then p else q := by
  induction ps with
  | nil => cases h
  | cons q qs ih =>
    rw [List.map_cons, List.nodup_cons] at hn
    rw [put, List.map_cons]
    split
    next hq =>
      have hrest : ∀ q' ∈ qs, (if q'.key = p.key then p else q') = q' := fun q' hq' =>
        if_neg fun he => hn.1 (List.mem_map.mpr ⟨q', hq', he.trans hq.symm⟩)
      rw [List.map_congr_left hrest, List.map_id']
    next hq =>
      rw [ih hn.2 ((List.mem_cons.mp h).resolve_left (Ne.symm hq))]

theorem map_key_put_of_mem {p : Resolved} (hn : (ps.map Resolved.key).Nodup)
    (h : p.key ∈ ps.map Resolved.key) : (put p ps).map Resolved.key = ps.map Resolved.key := by
  rw [put_of_mem hn h, List.map_map]
  refine List.map_congr_left fun q _ => ?_
  rw [Function.comp_apply]
  split
  next h => exact h.symm
  next => rfl

theorem put_of_notMem {p : Resolved} (h : p.key ∉ ps.map Resolved.key) : put p ps = ps ++ [p] := by
  induction ps with
  | nil => rfl
  | cons q qs ih =>
    rw [List.map_cons, List.mem_cons, not_or] at h
    rw [put, if_neg (Ne.symm h.1), ih h.2, List.cons_append]

/-- Own parameters replace common ones in their places, and the others come last. -/
theorem merge_eq (hc : (common.map Resolved.key).Nodup) (ho : (own.map Resolved.key).Nodup) :
    merge common own = common.map (inPlaceOf own) ++
      own.filter fun p => p.key ∉ common.map Resolved.key := by
  induction own generalizing common with
  | nil =>
    have hkept : inPlaceOf [] = id := rfl
    simp [merge, hkept]
  | cons p own ih =>
    rw [List.map_cons, List.nodup_cons] at ho
    have hlater : inPlaceOf own p = p := inPlaceOf_of_notMem ho.1
    show merge (put p common) own = _
    by_cases hmem : p.key ∈ common.map Resolved.key
    · have hkeys := map_key_put_of_mem hc hmem
      rw [ih (hkeys ▸ hc) ho.2, hkeys, List.filter_cons_of_neg (by simpa using hmem),
        put_of_mem hc hmem, List.map_map]
      refine congrArg (· ++ _) (List.map_congr_left fun q _ => ?_)
      rw [inPlaceOf_cons, Function.comp_apply]
      split
      next => exact hlater
      next => rfl
    · have hne : ∀ q ∈ common, q.key ≠ p.key := fun q hq he =>
        hmem (List.mem_map.mpr ⟨q, hq, he⟩)
      have hn : ((common ++ [p]).map Resolved.key).Nodup := by
        rw [List.map_append, List.map_singleton, ← List.concat_eq_append]
        exact List.Nodup.concat hmem hc
      have hcommon : common.map (inPlaceOf (p :: own)) = common.map (inPlaceOf own) :=
        List.map_congr_left fun q hq => by rw [inPlaceOf_cons, if_neg (hne q hq)]
      have hrest : own.filter (fun q => q.key ∉ (common ++ [p]).map Resolved.key) =
          own.filter fun q => q.key ∉ common.map Resolved.key := by
        refine List.filter_congr fun q hq => ?_
        have hqp : q.key ≠ p.key := fun he => ho.1 (List.mem_map.mpr ⟨q, hq, he⟩)
        simp [hqp]
      rw [put_of_notMem hmem, ih hn ho.2, hrest, hcommon, List.map_append, List.map_singleton,
        hlater, List.append_assoc, List.filter_cons_of_pos (by simpa using hmem)]
      rfl

/-- The parameters of an operation in place of those of its path item. -/
structure Combines (common own merged : List Resolved) : Prop where
  keys : ∀ key, key ∈ merged.map Resolved.key ↔
    key ∈ common.map Resolved.key ∨ key ∈ own.map Resolved.key
  /-- A common key stays where it is, with the operation's parameter. -/
  replaced {i : Nat} {p q : Resolved} : common[i]? = some p → q ∈ own → q.key = p.key →
    merged[i]? = some q
  kept {i : Nat} {p : Resolved} : common[i]? = some p → p.key ∉ own.map Resolved.key →
    merged[i]? = some p
  rest : merged.drop common.length = own.filter fun q => q.key ∉ common.map Resolved.key

theorem keys_merge (hc : (common.map Resolved.key).Nodup) (ho : (own.map Resolved.key).Nodup) :
    (merge common own).map Resolved.key = common.map Resolved.key ++
      (own.map Resolved.key).filter (· ∉ common.map Resolved.key) := by
  have hkept : Resolved.key ∘ inPlaceOf own = Resolved.key := funext (key_inPlaceOf own)
  rw [merge_eq hc ho, List.map_append, List.map_map, hkept, List.filter_map]
  rfl

theorem combines_merge (hc : (common.map Resolved.key).Nodup)
    (ho : (own.map Resolved.key).Nodup) : Combines common own (merge common own) where
  keys key := by
    rw [keys_merge hc ho, List.mem_append, List.mem_filter, decide_eq_true_iff]
    exact ⟨fun h => h.imp_right And.left, fun h => (Classical.em _).imp_right fun hn =>
      ⟨h.resolve_left hn, hn⟩⟩
  replaced {i p q} hp hq h := by
    rw [merge_eq hc ho, List.getElem?_append_left (by
      rw [List.length_map]; exact (List.getElem?_eq_some_iff.mp hp).1), List.getElem?_map, hp,
      Option.map_some, inPlaceOf_of_mem ho hq h]
  kept {i p} hp h := by
    rw [merge_eq hc ho, List.getElem?_append_left (by
      rw [List.length_map]; exact (List.getElem?_eq_some_iff.mp hp).1), List.getElem?_map, hp,
      Option.map_some, inPlaceOf_of_notMem h]
  rest := by
    rw [merge_eq hc ho, List.drop_left' (List.length_map _)]

theorem mem_of_mem_merge (hc : (common.map Resolved.key).Nodup) (ho : (own.map Resolved.key).Nodup)
    {p : Resolved} (h : p ∈ merge common own) : p ∈ common ∨ p ∈ own := by
  rw [merge_eq hc ho] at h
  rcases List.mem_append.mp h with h | h
  · obtain ⟨q, hq, rfl⟩ := List.mem_map.mp h
    rcases inPlaceOf_eq_or own q with he | ⟨hmem, -⟩
    · rw [he]; exact .inl hq
    · exact .inr hmem
  · exact .inr (List.mem_filter.mp h).1

theorem Listed.merge (hc : Listed common) (ho : Listed own) : Listed (merge common own) where
  distinct := by
    rw [keys_merge hc.distinct ho.distinct, List.nodup_append']
    refine ⟨hc.distinct, ho.distinct.filter _, fun key hk hk' => ?_⟩
    exact absurd hk (by simpa using (List.mem_filter.mp hk').2)
  required p hp :=
    (mem_of_mem_merge hc.distinct ho.distinct hp).elim (hc.required p) (ho.required p)
  counted p hp :=
    (mem_of_mem_merge hc.distinct ho.distinct hp).elim (hc.counted p) (ho.counted p)

end OpenApi.Parameter
