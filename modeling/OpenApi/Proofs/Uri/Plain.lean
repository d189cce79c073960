import OpenApi.Proofs.Percent
import OpenApi.Proofs.Text
import OpenApi.Uri.Parser

/-!
# Plain parts of URLs

Neither white space nor `#` is in a plain text (`Text.Plain`). Reading a URL drops, encodes or
refuses white space in its parts, and leaves `#` to the fragment.

* `Uri.Host.special?_eq_none_of_international`: international domains are no hosts;
* `Uri.Host.plain_special?`, `Uri.Host.plain_general?`: hosts are plain;
* `Uri.plainNames_readSegments`, `Uri.plainNames_readFromFile`: the names of a path are plain if
  those are that it continues.
-/

namespace OpenApi

/-! ## Characters -/

namespace Text

/-- Neither white space nor `#`. -/
structure PlainChar (c : Char) : Prop where
  not_blank : isBlank c = false
  ne_mark : c ≠ '#'

/-- Neither white space nor `#` is in a text. -/
def Plain (s : String) : Prop := ∀ c ∈ s.toList, PlainChar c

instance : DecidablePred PlainChar := fun c =>
  decidable_of_iff (isBlank c = false ∧ c ≠ '#') ⟨fun h => ⟨h.1, h.2⟩, fun h => ⟨h.1, h.2⟩⟩

instance : DecidablePred Plain := fun s => List.decidableBAll PlainChar s.toList

theorem plain_empty : Plain "" := by
  intro c hc
  cases hc

theorem Plain.append {s t : String} (hs : Plain s) (ht : Plain t) : Plain (s ++ t) := by
  intro c hc
  rw [String.toList_append, List.mem_append] at hc
  exact hc.elim (hs c) (ht c)

theorem Plain.of_subset {s t : String} (h : Plain t) (hs : ∀ c ∈ s.toList, c ∈ t.toList) :
    Plain s :=
  fun c hc => h c (hs c hc)

theorem plain_join {texts : List String} (h : ∀ s ∈ texts, Plain s) :
    Plain (String.join texts) := by
  intro c hc
  rw [String.toList_join, List.mem_flatMap] at hc
  obtain ⟨s, hs, hc⟩ := hc
  exact h s hs c hc

theorem plain_intercalate {separator : String} (hsep : Plain separator) {texts : List String}
    (h : ∀ s ∈ texts, Plain s) : Plain (separator.intercalate texts) := by
  induction texts with
  | nil => exact plain_empty
  | cons s texts ih =>
    have hs := h s List.mem_cons_self
    have hrest : ∀ t ∈ texts, Plain t := fun t ht => h t (List.mem_cons_of_mem _ ht)
    cases texts with
    | nil => simpa using hs
    | cons t texts =>
      rw [String.intercalate_cons_cons]
      exact (hs.append hsep).append (ih hrest)

/-- The digits of a number are plain in every base up to sixteen. -/
theorem plain_toDigits {base : Nat} (hlow : 1 < base) (hhigh : base ≤ 16) (n : Nat) :
    Plain (String.ofList (Nat.toDigits base n)) := by
  have hdigit : ∀ d : Fin 16, PlainChar d.val.digitChar := by decide
  induction n using Nat.strongRecOn with
  | ind n ih =>
    rw [Nat.toDigits_eq_if hlow]
    intro c hc
    split at hc
    next hn =>
      rw [String.toList_ofList, List.mem_singleton] at hc
      exact hc ▸ hdigit ⟨n, by omega⟩
    next hn =>
      rw [String.toList_ofList, List.mem_append, List.mem_singleton] at hc
      rcases hc with hc | rfl
      · exact ih (n / base) (Nat.div_lt_self (by omega) hlow) c (by rwa [String.toList_ofList])
      · exact hdigit ⟨n % base, (Nat.mod_lt n (by omega)).trans_le hhigh⟩

end Text

open Text

namespace Percent

/-- A text is plain once it is encoded, if what is kept of it is. -/
theorem plain_encodeChars {keep : Char → Bool} {cs : List Char}
    (h : ∀ c ∈ cs, keep c = true → PlainChar c) :
    Plain (String.ofList (encodeChars keep cs)) := by
  intro c hc
  rw [String.toList_ofList] at hc
  rcases mem_encodeChars hc with ⟨hc, hkeep⟩ | hc | rfl
  · exact h c hc hkeep
  · refine ⟨Parameter.isBlank_of_isUnreserved (by simp [Parameter.isUnreserved, hc]), ?_⟩
    rintro rfl
    exact absurd hc (by decide)
  · decide

end Percent

namespace Uri

/-- Printable ASCII is plain but for the space and `#`. -/
theorem plain_of_keepsExcept {excluded : List Char} (hspace : ' ' ∈ excluded)
    (hmark : '#' ∈ excluded) {c : Char} (h : keepsExcept excluded c = true) :
    PlainChar c := by
  simp only [keepsExcept, Bool.and_eq_true, decide_eq_true_eq, Bool.not_eq_true',
    List.contains_eq_mem, decide_eq_false_iff_not] at h
  obtain ⟨⟨low, high⟩, hc⟩ := h
  have hne : c.toNat ≠ 0x20 := fun he => by
    obtain rfl : c = ' ' := Char.toNat_inj.mp he
    exact hc hspace
  exact ⟨isBlank_of_visible (by omega) high, by rintro rfl; exact hc hmark⟩

theorem plain_of_keptInPath {c : Char} (h : keptInPath c = true) : PlainChar c :=
  plain_of_keepsExcept (by decide) (by decide) h

theorem plain_of_keptInQuery {special : Bool} {c : Char} (h : keptInQuery special c = true) :
    PlainChar c := by
  rw [keptInQuery, Bool.and_eq_true] at h
  exact plain_of_keepsExcept (by decide) (by decide) h.1

theorem plain_of_keptInUserInfo {c : Char} (h : keptInUserInfo c = true) :
    PlainChar c := by
  rw [keptInUserInfo, Bool.and_eq_true] at h
  exact plain_of_keptInPath h.1

/-! ## Hosts -/

namespace Host

theorem plain_addressText (n : Nat) : Plain (addressText n) := by
  refine plain_intercalate (by decide) fun s hs => ?_
  obtain ⟨b, -, rfl⟩ := List.mem_map.mp hs
  exact plain_toDigits (by decide) (by decide) b

theorem plain_piecesText (ps : List Nat) : Plain (piecesText ps) := by
  have hpieces (qs : List Nat) : Plain (":".intercalate (qs.map pieceText)) := by
    refine plain_intercalate (by decide) fun s hs => ?_
    obtain ⟨q, -, rfl⟩ := List.mem_map.mp hs
    exact plain_toDigits (by decide) (by decide) q
  simp only [piecesText]
  split
  · exact hpieces ps
  · exact ((hpieces _).append (by decide)).append (hpieces _)

theorem plain_bracketed? {cs : List Char} {host : String} (h : bracketed? cs = some host) :
    Plain host := by
  rw [bracketed?] at h
  split at h
  · obtain ⟨ps, -, rfl⟩ := Option.map_eq_some_iff.mp h
    exact (Plain.append (by decide) (plain_piecesText ps)).append (by decide)
  · cases h

theorem plain_of_not_isForbidden {c : Char} (h : isForbidden c = false) :
    PlainChar c := by
  simp only [isForbidden, Bool.or_eq_false_iff, decide_eq_false_iff_not, List.contains_eq_mem] at h
  obtain ⟨⟨low, high⟩, hc⟩ := h
  exact ⟨isBlank_of_visible (by omega) (by omega), by rintro rfl; exact hc (by decide)⟩

theorem toLower_of_international {c : Char} (h : 0x80 ≤ c.toNat) : c.toLower = c := by
  have hupper : 'Z'.val.toNat = 90 := by decide
  delta Char.toLower
  refine dif_neg ?_
  rintro ⟨-, hle⟩
  rw [UInt32.le_iff_toNat_le] at hle
  rw [Char.toNat] at h
  omega

/-- An international domain is no host, whether it is percent-encoded or not. -/
theorem special?_eq_none_of_international {cs : List Char} {decoded : String} {c : Char}
    (hbracket : cs.head? ≠ some '[')
    (hdecoded : Percent.textOfBytes? (Percent.decodeBytes cs) = some decoded)
    (hc : c ∈ decoded.toList) (h : 0x80 ≤ c.toNat) : special? cs = none := by
  have hforbidden : (decoded.toList.map Char.toLower).any isForbidden = true := by
    refine List.any_eq_true.mpr ⟨c, List.mem_map.mpr ⟨c, hc, toLower_of_international h⟩, ?_⟩
    have hhigh : decide (c.toNat ≥ 0x7F) = true := decide_eq_true (by omega)
    rw [isForbidden, hhigh, Bool.or_true, Bool.true_or]
  rw [special?.eq_def]
  split
  next rest => exact absurd rfl hbracket
  next =>
    rw [hdecoded]
    simp only [bind, Option.bind_some, hforbidden, Bool.or_true, if_true]

theorem plain_special? {cs : List Char} {host : String} (h : special? cs = some host) :
    Plain host := by
  rw [special?.eq_def] at h
  split at h
  · exact plain_bracketed? h
  · obtain ⟨decoded, -, h⟩ := Option.bind_eq_some_iff.mp h
    simp only at h
    split at h
    · cases h
    next hallowed =>
      split at h
      · obtain ⟨n, -, rfl⟩ := Option.map_eq_some_iff.mp h
        exact plain_addressText n
      · cases h
        simp only [Bool.or_eq_true, not_or, List.any_eq_true, not_exists, not_and,
          Bool.not_eq_true] at hallowed
        intro c hc
        rw [String.toList_ofList] at hc
        exact plain_of_not_isForbidden (hallowed.2 c hc)

theorem plain_general? {cs : List Char} {host : String} (h : general? cs = some host) :
    Plain host := by
  rw [general?.eq_def] at h
  split at h
  · exact plain_bracketed? h
  · split at h
    · cases h
    next hallowed =>
      cases h
      simp only [List.any_eq_true, not_exists, not_and, Bool.not_eq_true, isForbiddenAnywhere,
        List.contains_eq_mem, decide_eq_false_iff_not] at hallowed
      refine Percent.plain_encodeChars fun c hc hkeep => ?_
      have hallowed := hallowed c hc
      simp only [Bool.and_eq_true, decide_eq_true_eq] at hkeep
      have hne : c.toNat ≠ 0x20 := fun he => by
        obtain rfl : c = ' ' := Char.toNat_inj.mp he
        exact hallowed (by decide)
      exact ⟨isBlank_of_visible (by omega) hkeep.2, by rintro rfl; exact hallowed (by decide)⟩

end Host

/-! ## Paths -/

/-- All names of a path are plain. -/
def PlainNames (names : List String) : Prop := ∀ name ∈ names, Plain name

theorem plainNames_nil : PlainNames [] := by
  intro name h
  cases h

theorem PlainNames.append {names more : List String} (h : PlainNames names)
    (h' : PlainNames more) : PlainNames (names ++ more) := by
  intro name hn
  exact (List.mem_append.mp hn).elim (h name) (h' name)

theorem plainNames_singleton {name : String} (h : Plain name) : PlainNames [name] := by
  intro other hn
  rwa [List.mem_singleton.mp hn]

theorem PlainNames.of_subset {names more : List String} (h : PlainNames more)
    (hs : names ⊆ more) : PlainNames names :=
  fun name hn => h name (hs hn)

theorem plain_segmentText (file first : Bool) (segment : List Char) :
    Plain (segmentText file first segment) := by
  have hencoded (cs : List Char) : Plain (String.ofList (Percent.encodeChars keptInPath cs)) :=
    Percent.plain_encodeChars fun c _ h => plain_of_keptInPath h
  rw [segmentText.eq_def]
  split
  next letter =>
    split
    next h =>
      have hletter : letter.isAlpha = true := by simp_all
      intro c hc
      rw [String.toList_ofList] at hc
      simp only [List.mem_cons, List.not_mem_nil, or_false] at hc
      rcases hc with rfl | rfl
      · refine ⟨Parameter.isBlank_of_isUnreserved ?_, ?_⟩
        · simp [Parameter.isUnreserved, Char.isAlphanum, hletter]
        · rintro rfl
          exact absurd hletter (by decide)
      · decide
    · exact hencoded _
  · exact hencoded _

theorem parent_subset (names : List String) : parent names ⊆ names := by
  rw [parent]
  split
  · split
    · exact List.Subset.refl _
    · exact List.dropLast_subset names
  · exact List.nil_subset _

theorem plainNames_appendSegments {file : Bool} {names : List String} (h : PlainNames names)
    (segments : List (List Char)) : PlainNames (appendSegments file names segments) := by
  induction segments generalizing names with
  | nil => exact h
  | cons segment rest ih =>
    have hempty : PlainNames (if rest.isEmpty then [""] else []) := by
      split
      · exact plainNames_singleton plain_empty
      · exact plainNames_nil
    rw [appendSegments]
    refine ih ?_
    split
    · exact (h.of_subset (parent_subset names)).append hempty
    · split
      · exact h.append hempty
      · exact h.append (plainNames_singleton (plain_segmentText _ _ _))

theorem plainNames_continueDrive {names : List String} (h : PlainNames names) {drive : String}
    (hd : Plain drive) (segments : List (List Char)) :
    PlainNames (continueDrive names drive segments) := by
  have hstays : PlainNames (names ++ [drive]) := h.append (plainNames_singleton hd)
  cases segments with
  | nil => exact hstays
  | cons segment rest =>
    rw [continueDrive]
    split
    · exact hstays
    · split
      · exact plainNames_appendSegments hstays _
      · exact plainNames_appendSegments
          (h.append (plainNames_singleton (hd.append (plain_segmentText _ _ _)))) _

theorem plainNames_dropEmptyFront {names : List String} (h : PlainNames names) :
    PlainNames (dropEmptyFront names) := by
  rw [dropEmptyFront.eq_def]
  split
  · exact plainNames_singleton plain_empty
  · exact h.of_subset (List.dropWhile_subset _)

theorem plainNames_readSegments {scheme : String} {names : List String} (h : PlainNames names)
    (cs : List Char) : PlainNames (readSegments scheme names cs) := by
  simp only [readSegments]
  split
  · exact plainNames_dropEmptyFront (plainNames_appendSegments h _)
  · exact plainNames_appendSegments h _

theorem plainNames_readFromFile {base : List String} (h : PlainNames base) (cs : List Char) :
    PlainNames (readFromFile base cs) := by
  have hfront : PlainNames base.dropLast := h.of_subset (List.dropLast_subset base)
  refine plainNames_dropEmptyFront ?_
  split
  next last hlast =>
    split
    · exact plainNames_continueDrive hfront (h last (List.mem_of_getLast? hlast)) _
    · exact plainNames_appendSegments hfront _
  · exact plainNames_appendSegments plainNames_nil _

end Uri

end OpenApi
