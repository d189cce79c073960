import OpenApi.Proofs.FileName
import OpenApi.Reference

/-!
# References between files

A file name that is read as a URL reference adds its segments to the path of the base, from the root
on if it is absolute (`Uri.join?_fileName`). Resolving a file name in another one reads both under
the placeholder origin. What the origin has in front of its root is lost: the levels that a relative
name climbs above the current directory, and the slash of an absolute reference in a relative name.

* `Reference.resolveAgainst_fileName`: the text of a resolved file name;
* `Reference.resolveAgainst_join`: it denotes the reference's place in the directory of the context
  exactly if the context is absolute, or the reference is relative and does not climb
  (`Reference.Within`).
-/

namespace OpenApi

open Text

namespace Uri

/-! ## Reading texts of file names -/

variable {cs : List Char}

theorem clean_eq_self (h : ∀ c ∈ cs, 0x20 < c.toNat) : clean cs = cs := by
  have houter : ∀ c ∈ cs, decide (c.toNat ≤ 0x20) = false :=
    fun c hc => decide_eq_false (Nat.not_le.mpr (h c hc))
  have hreverse : ∀ c ∈ cs.reverse, decide (c.toNat ≤ 0x20) = false :=
    fun c hc => houter c (List.mem_reverse.mp hc)
  simp only [clean]
  rw [dropWhile_eq_self houter, dropEndWhile, dropWhile_eq_self hreverse, List.reverse_reverse,
    List.filter_eq_self]
  intro c hc
  have hinvisible : ['\t', '\n', '\r'].all (·.toNat ≤ 0x20) = true := by decide
  have hne : c ∉ ['\t', '\n', '\r'] := fun hmem => absurd (h c hc)
    (Nat.not_lt.mpr (of_decide_eq_true (List.all_eq_true.mp hinvisible c hmem)))
  rw [List.contains_eq_mem, decide_eq_false hne]
  rfl

theorem schemeTail?_of_notMem (h : ':' ∉ cs) : schemeTail? cs = none := by
  induction cs with
  | nil => rfl
  | cons c cs ih =>
    obtain ⟨hne, hcs⟩ := List.ne_and_not_mem_of_not_mem_cons h
    rw [schemeTail?, ih hcs]
    · split <;> rfl
    · exact fun hc => hne hc.symm

theorem scheme?_of_notMem (h : ':' ∉ cs) : scheme? cs = none := by
  cases cs with
  | nil => rfl
  | cons c cs =>
    rw [scheme?, schemeTail?_of_notMem h]
    split <;> rfl

theorem splitAtAny_eq_splitOn {p : Char → Bool} {sep : Char}
    (h : ∀ c ∈ cs, p c = true ↔ c = sep) : splitAtAny p cs = splitOn sep cs := by
  induction cs with
  | nil => rfl
  | cons c cs ih =>
    have hsep := h c List.mem_cons_self
    rw [splitAtAny, splitOn, ih fun d hd => h d (List.mem_cons_of_mem _ hd)]
    by_cases hc : c = sep
    · exact (if_pos (hsep.mpr hc)).trans (if_pos hc).symm
    · exact (if_neg (mt hsep.mp hc)).trans (if_neg hc).symm

theorem clean_fileName (n : FileName) : clean n.text.toList = n.text.toList :=
  clean_eq_self fun _ hc => (FileName.mem_text hc).toNat.1

theorem scheme?_fileName (n : FileName) : scheme? n.text.toList = none :=
  scheme?_of_notMem fun hc => (FileName.mem_text hc).ne_mark ':' (by decide) (by decide) rfl

/-- A file name is no absolute URL. -/
theorem parse?_fileName (n : FileName) : parse? n.text = none := by
  rw [parse?, read?, clean_fileName, scheme?_fileName]

theorem isSlash_fileName {c : Char} (h : IsFileNameCharacter c) :
    isSlash true c = true ↔ c = '/' := by
  have hbackslash := h.ne_mark '\\' (by decide) (by decide)
  simp [isSlash, hbackslash]

/-- Neither a query nor a fragment begins in a file name. -/
theorem endsPath_fileName {c : Char} (h : IsFileNameCharacter c) : endsPath c = false := by
  have hquery := h.ne_mark '?' (by decide) (by decide)
  have hfragment := h.ne_mark '#' (by decide) (by decide)
  rw [endsPath, beq_eq_false_iff_ne.mpr hquery, beq_eq_false_iff_ne.mpr hfragment]
  rfl

theorem endsPath_slashes {segments : List String} (h : ∀ s ∈ segments, PlainSegment s) :
    ∀ c ∈ ("/".intercalate segments).toList, (!endsPath c) = true := by
  intro c hc
  rw [endsPath_fileName (FileName.mem_slashes (fun s hs => (h s hs).2) hc)]
  rfl

theorem writtenSegments_slashes {segments : List String} (hne : segments ≠ [])
    (h : ∀ s ∈ segments, PlainSegment s) :
    writtenSegments true ("/".intercalate segments).toList = segments.map String.toList := by
  rw [writtenSegments, List.takeWhile_eq_self_iff.mpr (endsPath_slashes h),
    splitAtAny_eq_splitOn fun c hc =>
      isSlash_fileName (FileName.mem_slashes (fun s hs => (h s hs).2) hc),
    splitOn_slashes hne fun s hs => (h s hs).notMem_slash]

/-! ## Plain segments -/

section PlainSegments

variable {segment : String}

theorem keptInPath_of_isUnreserved {c : Char} (h : Parameter.isUnreserved c = true) :
    keptInPath c = true := by
  obtain ⟨low, high⟩ := Parameter.toNat_of_isUnreserved h
  simp only [keptInPath, keepsExcept, Bool.and_eq_true, decide_eq_true_eq, Bool.not_eq_true',
    List.contains_eq_mem, decide_eq_false_iff_not]
  refine ⟨⟨by omega, high⟩, fun hc => ?_⟩
  have hexcluded : [' ', '"', '#', '<', '>', '?', '^', Char.ofNat 0x60, '{', '}'].all
      (!Parameter.isUnreserved ·) = true := by decide
  have hc := List.all_eq_true.mp hexcluded c hc
  rw [h] at hc
  cases hc

theorem segmentText_plain (h : PlainSegment segment) (first : Bool) :
    segmentText false first segment.toList = segment := by
  have hself : String.ofList (Percent.encodeChars keptInPath segment.toList) = segment := by
    rw [Percent.encodeChars_eq_self fun c hc => keptInPath_of_isUnreserved (h.2 c hc),
      String.ofList_toList]
  rw [segmentText.eq_def]
  split
  next letter hletter => rwa [Bool.false_and, Bool.false_and, if_neg Bool.false_ne_true]
  next => exact hself

theorem toLower_of_isUnreserved {c : Char} (h : Parameter.isUnreserved c = true) :
    c.toLower ≠ '%' ∧ (c.toLower = '.' → c = '.') := by
  have hall : ∀ n : Fin 0x7F, Parameter.isUnreserved (Char.ofNat n) = true →
      (Char.ofNat n).toLower ≠ '%' ∧ ((Char.ofNat n).toLower = '.' → Char.ofNat n = '.') := by
    decide
  have hc := hall ⟨c.toNat, (Parameter.toNat_of_isUnreserved h).2⟩
  rw [Char.ofNat_toNat] at hc
  exact hc h

/-- A percent sign is nowhere in a plain segment, so that no dot in it is encoded. -/
theorem map_toLower_ne (h : PlainSegment segment) (dots : List Char) (hdots : '%' ∈ dots) :
    segment.toList.map Char.toLower ≠ dots := by
  rintro rfl
  obtain ⟨c, hc, hlower⟩ := List.mem_map.mp hdots
  exact (toLower_of_isUnreserved (h.2 c hc)).1 hlower

theorem isDot_plain (h : PlainSegment segment) : isDot segment.toList = true ↔ segment = "." := by
  have hencoded := map_toLower_ne h ['%', '2', 'e'] (by decide)
  rw [isDot, beq_eq_false_iff_ne.mpr hencoded, Bool.or_false, beq_iff_eq]
  show segment.toList = ".".toList ↔ segment = "."
  exact String.toList_inj

theorem isDoubleDot_plain (h : PlainSegment segment) :
    isDoubleDot segment.toList = true ↔ segment = ".." := by
  have hfirst := map_toLower_ne h ['%', '2', 'e', '.'] (by decide)
  have hsecond := map_toLower_ne h ['.', '%', '2', 'e'] (by decide)
  have hboth := map_toLower_ne h ['%', '2', 'e', '%', '2', 'e'] (by decide)
  rw [isDoubleDot, beq_eq_false_iff_ne.mpr hfirst, beq_eq_false_iff_ne.mpr hsecond,
    beq_eq_false_iff_ne.mpr hboth, Bool.or_false, Bool.or_false, Bool.or_false, beq_iff_eq]
  constructor
  · intro hdots
    obtain ⟨a, cs, hsegment, ha, hcs⟩ := List.map_eq_cons_iff.mp hdots
    obtain ⟨b, rest, rfl, hb, hrest⟩ := List.map_eq_cons_iff.mp hcs
    obtain rfl := List.map_eq_nil_iff.mp hrest
    have hdot : ∀ c ∈ segment.toList, c.toLower = '.' → c = '.' :=
      fun c hc => (toLower_of_isUnreserved (h.2 c hc)).2
    rw [hsegment] at hdot
    rw [hdot a (by simp) ha, hdot b (by simp) hb] at hsegment
    exact String.toList_inj.mp hsegment
  · rintro rfl
    rfl

/-- No plain segment is a drive letter, which has a colon or bar. -/
theorem beginsWithDrive_plain (h : PlainSegment segment) :
    beginsWithDrive segment.toList = false := by
  have hne {c : Char} (hc : c ∈ segment.toList) (mark : Char)
      (hmark : Parameter.isUnreserved mark = false) (hslash : mark ≠ '/') : c ≠ mark :=
    IsFileNameCharacter.ne_mark (.inr (h.2 c hc)) mark hmark hslash
  rw [beginsWithDrive, List.takeWhile_eq_self_iff.mpr fun c hc =>
    bne_iff_ne.mpr (hne hc '\\' (by decide) (by decide)), isDrive.eq_def]
  split
  next letter mark hsegment =>
    have hmark : mark ∈ segment.toList := by simp [hsegment]
    have hcolon := hne hmark ':' (by decide) (by decide)
    have hbar := hne hmark '|' (by decide) (by decide)
    simp [hcolon, hbar]
  next => rfl

theorem parent_plain {p : Place} (h : p.Plain) : parent p.names = p.names.dropLast := by
  rw [parent]
  split
  next last hlast =>
    rw [beginsWithDrive_plain (h last (List.mem_of_getLast? hlast)).1, if_neg Bool.false_ne_true]
  next hnone => rw [List.getLast?_eq_none_iff.mp hnone, List.dropLast_nil]

/-- One segment leads to the same names in a URL and by itself. -/
theorem appendSegment_plain {p : Place} (hp : p.Plain) (h : PlainSegment segment) (final : Bool) :
    (if isDoubleDot segment.toList then parent p.names ++ (if final then [""] else [])
      else if isDot segment.toList then p.names ++ (if final then [""] else [])
      else p.names ++ [segmentText false p.names.isEmpty segment.toList]) =
    (p.step segment).names ++ (if final then finalSegment [segment] else []) := by
  simp only [isDoubleDot_plain h, isDot_plain h, parent_plain hp, segmentText_plain h]
  by_cases hdots : segment = ".."
  · rw [if_pos hdots, hdots, Place.step_double_dot]
    rfl
  by_cases hdot : segment = "."
  · rw [if_neg hdots, if_pos hdot, hdot, Place.step_dot]
    rfl
  · have hfinal : finalSegment [segment] = [] := by
      simp [finalSegment, endsInDots, hdot, hdots]
    rw [if_neg hdots, if_neg hdot, Place.step_name h.1 hdot hdots, hfinal, ite_self,
      List.append_nil]

/-- The names that a URL has after reading segments are those to which the segments lead. -/
theorem appendSegments_plain {p : Place} (hp : p.Plain) {segments : List String}
    (h : ∀ s ∈ segments, PlainSegment s) :
    appendSegments false p.names (segments.map String.toList) =
      (p.walk segments).names ++ finalSegment segments := by
  induction segments generalizing p with
  | nil =>
    rw [List.map_nil, appendSegments, Place.walk_nil]
    exact (List.append_nil _).symm
  | cons segment rest ih =>
    have hsegment := h segment List.mem_cons_self
    have hrest : ∀ s ∈ rest, PlainSegment s := fun s hs => h s (List.mem_cons_of_mem _ hs)
    rw [List.map_cons, appendSegments, appendSegment_plain hp hsegment, Place.walk_cons]
    -- only dots at the end leave an empty segment
    cases rest with
    | nil => rfl
    | cons next rest =>
      rw [finalSegment_cons segment (List.cons_ne_nil _ _), ← ih (hp.step hsegment) hrest]
      exact congrArg (appendSegments false · _) (List.append_nil _)

end PlainSegments

/-! ## File names as references -/

theorem withPath_slashes {scheme : String} (hspecial : isSpecial scheme = true)
    (hfile : scheme ≠ "file") (authority : Option Authority) (names : List String)
    {segments : List String} (hne : segments ≠ []) (h : ∀ s ∈ segments, PlainSegment s) :
    withPath scheme authority names ("/".intercalate segments).toList =
      { scheme, authority,
        path := .segments (appendSegments false names (segments.map String.toList)),
        query := none, fragment := none } := by
  have htail : ("/".intercalate segments).toList.dropWhile (!endsPath ·) = [] :=
    List.dropWhile_eq_nil_iff.mpr (endsPath_slashes h)
  have hread : readSegments scheme names ("/".intercalate segments).toList =
      appendSegments false names (segments.map String.toList) := by
    simp only [readSegments, hspecial, writtenSegments_slashes hne h, beq_eq_false_iff_ne.mpr hfile,
      Bool.false_eq_true, ↓reduceIte]
  rw [withPath, withTail, htail, hread]
  rfl

theorem relative?_slash {c : Char} (hc : isSlash true c = false) (base : Uri) (cs : List Char) :
    relative? base ('/' :: c :: cs) =
      some (withPath base.scheme base.authority [] (c :: cs)) := by
  have hslash : (c == '/') = false := (Bool.or_eq_false_iff.mp hc).1
  rw [relative?.eq_def]
  split
  next h => cases h
  next h => exact absurd (List.cons.inj h).1 (by decide)
  next h => exact absurd (List.cons.inj h).1 (by decide)
  next h =>
    cases h
    simp only [show isSlash true '/' = true from rfl, hslash, hc, Bool.and_false,
      Bool.false_eq_true, ↓reduceIte]

theorem relative?_name {c : Char} (hc : isSlash true c = false) (hpath : endsPath c = false)
    (base : Uri) (cs : List Char) : relative? base (c :: cs) =
      some (withPath base.scheme base.authority base.path.names.dropLast (c :: cs)) := by
  obtain ⟨hquery, hfragment⟩ := Bool.or_eq_false_iff.mp hpath
  rw [relative?.eq_def]
  split
  next h => cases h
  next h => exact absurd (List.cons.inj h).1 (beq_eq_false_iff_ne.mp hquery)
  next h => exact absurd (List.cons.inj h).1 (beq_eq_false_iff_ne.mp hfragment)
  next h =>
    cases h
    rw [hc, if_neg Bool.false_ne_true]

/-- A file name that is read against a URL with a path replaces that path from the root on, or from
its last segment on. -/
theorem join?_fileName {base : Uri} {names : List String} (hpath : base.path = .segments names)
    (hspecial : isSpecial base.scheme = true) (hfile : base.scheme ≠ "file") (n : FileName) :
    join? base n.text = some { base with
      path := .segments (appendSegments false (if n.rooted then [] else names.dropLast)
        (n.segments.map String.toList))
      query := none
      fragment := none } := by
  have hwith (names : List String) := withPath_slashes hspecial hfile base.authority names
    n.segments_ne_nil n.plain
  have hnames : base.path.names = names := by
    rw [hpath]
    rfl
  have hrelative : join? base n.text = relative? base n.text.toList := by
    simp only [join?, read?, clean_fileName, scheme?_fileName, hpath,
      beq_eq_false_iff_ne.mpr hfile, Bool.false_eq_true, ↓reduceIte]
  obtain ⟨c, cs, hcs, hc⟩ := n.exists_cons
  have hne : c ≠ '/' := by
    rintro rfl
    exact absurd hc (by decide)
  have hslash : isSlash true c = false :=
    Bool.eq_false_iff.mpr (mt (isSlash_fileName (.inr hc)).mp hne)
  have hends : endsPath c = false := endsPath_fileName (.inr hc)
  rw [hcs] at hwith
  rw [hrelative, FileName.text, slashed]
  cases n.rooted with
  | true =>
    have htext : ("/" ++ "/".intercalate n.segments).toList = '/' :: c :: cs := by
      rw [String.toList_append, hcs]
      rfl
    rw [if_pos rfl, if_pos rfl, htext, relative?_slash hslash, hwith]
  | false =>
    rw [if_neg Bool.false_ne_true, if_neg Bool.false_ne_true, String.empty_append, hcs,
      relative?_name hslash hends, hnames, hwith]

end Uri

/-! ## Under the placeholder -/

namespace Reference

/-- The URL of a path under the placeholder origin. -/
def underPlaceholder (names : List String) : Uri where
  scheme := "http"
  authority := some { host := "example.invalid" }
  path := .segments names
  query := none
  fragment := none

theorem parse?_placeholder : Uri.parse? placeholder = some (underPlaceholder [""]) := by
  decide +kernel

theorem text_underPlaceholder {names : List String} (hne : names ≠ []) :
    (underPlaceholder names).text.toList =
      placeholder.toList ++ ("/".intercalate names).toList := by
  have hpath : (Uri.Path.segments names).text.toList = '/' :: ("/".intercalate names).toList :=
    toList_join_prefixed rfl hne
  have hguard : (Uri.Path.segments names).guard (some { host := "example.invalid" }) = "" := by
    rw [Uri.Path.guard.eq_def]
    split <;> rfl
  have hfront : "http" ++ ":" ++ Uri.Authority.text { host := "example.invalid" } =
      "http://example.invalid" := by
    decide +kernel
  show ("http" ++ ":" ++ Uri.Authority.text { host := "example.invalid" } ++
    (Uri.Path.segments names).guard (some { host := "example.invalid" }) ++
    (Uri.Path.segments names).text ++ "" ++ "").toList = _
  rw [hguard, hfront, String.append_empty, String.append_empty, String.append_empty,
    String.toList_append, hpath, List.append_cons]
  rfl

theorem join?_underPlaceholder (names : List String) (n : FileName) :
    Uri.join? (underPlaceholder names) n.text =
      some (underPlaceholder (Uri.appendSegments false (if n.rooted then [] else names.dropLast)
        (n.segments.map String.toList))) :=
  Uri.join?_fileName rfl (show Uri.isSpecial "http" = true by decide)
    (show "http" ≠ "file" by decide) n

/-- No second copy is taken off if a character of it does not occur in what is left. -/
theorem dropRepeated_once {start cs : List Char} {c : Char} (hmem : c ∈ start) (h : c ∉ cs)
    (fuel : Nat) : dropRepeated start (fuel + 1) (start ++ cs) = cs := by
  have hagain : dropRepeated start fuel cs = cs := by
    cases fuel with
    | zero => rfl
    | succ fuel =>
      rw [dropRepeated]
      split
      next rest hrest =>
        rw [eq_append_of_dropPrefix? hrest, List.mem_append] at h
        exact absurd (.inl hmem) h
      next => rfl
  rw [dropRepeated, dropPrefix?_append]
  exact hagain

theorem dropRepeated_placeholder {cs : List Char} (h : ':' ∉ cs) :
    dropRepeated placeholder.toList (placeholder.toList ++ cs).length (placeholder.toList ++ cs) =
      cs := by
  have hlength : (placeholder.toList ++ cs).length = 22 + cs.length + 1 := by
    rw [List.length_append, show placeholder.toList.length = 23 from rfl]
    omega
  rw [hlength]
  exact dropRepeated_once (by decide) h _

/-- The path under the placeholder origin to which a file name in another one leads. -/
theorem join?_placeholder (context reference : FileName) :
    (do
      let origin ← Uri.parse? placeholder
      let document ← Uri.join? origin context.text
      Uri.join? document reference.text) =
    some (underPlaceholder
      ((context.join reference).names ++ finalSegment reference.segments)) := by
  have hstart (rooted : Bool) := Place.plain_start rooted
  have hcontext : Uri.appendSegments false [] (context.segments.map String.toList) =
      ((Place.start context.rooted).walk context.segments).names ++
        finalSegment context.segments :=
    Uri.appendSegments_plain (hstart context.rooted) context.plain
  have hempty : (if context.rooted = true then [] else [""].dropLast) = ([] : List String) :=
    ite_self _
  -- the path of the context ends in a segment that reading the reference drops again
  rw [parse?_placeholder, Option.bind_eq_bind, Option.bind_some, join?_underPlaceholder, hempty,
    hcontext, Option.bind_some, join?_underPlaceholder, FileName.dropLast_walk_segments,
    FileName.join]
  cases reference.rooted with
  | true =>
    exact congrArg (some ∘ underPlaceholder)
      (Uri.appendSegments_plain (hstart true) reference.plain)
  | false =>
    exact congrArg (some ∘ underPlaceholder)
      (Uri.appendSegments_plain ((hstart context.rooted).walk context.plain_directory)
        reference.plain)

/-- The text of a resolved file name. -/
theorem resolveAgainst_fileName (context reference : FileName) :
    resolveAgainst reference.text (some context.text) =
      slashed context.rooted
        ((context.join reference).names ++ finalSegment reference.segments) := by
  have htrim (n : FileName) : trim n.text = n.text :=
    trim_eq_self fun c hc => (FileName.mem_text hc).isBlank
  have hcontext : context.text.isEmpty = false :=
    Bool.eq_false_iff.mpr fun h => context.text_ne_empty (String.isEmpty_iff.mp h)
  have hne : (context.join reference).names ++ finalSegment reference.segments ≠ [] := by
    obtain ⟨h, hnames⟩ | h := context.finalSegment_eq reference <;> simp [*]
  have hcolon : ':' ∉ ("/".intercalate
      ((context.join reference).names ++ finalSegment reference.segments)).toList := by
    have hunreserved := (context.plain_join reference).unreserved
      ((context.finalSegment_eq reference).imp_left And.left)
    exact fun hc => (FileName.mem_slashes hunreserved hc).ne_mark ':' (by decide) (by decide) rfl
  simp only [resolveAgainst, htrim, Uri.parse?_fileName, Option.getD_some, hcontext,
    Bool.false_eq_true, ↓reduceIte, resolveUnderPlaceholder, join?_placeholder,
    context.startsWith_text, text_underPlaceholder hne, dropRepeated_placeholder hcolon]
  cases context.rooted with
  | true =>
    rw [slashed, if_pos rfl, if_pos rfl, ← String.toList_inj, String.toList_ofList,
      String.toList_append]
    rfl
  | false =>
    rw [slashed, if_neg Bool.false_ne_true, if_neg Bool.false_ne_true, String.ofList_toList,
      String.empty_append]

/-- A resolved file name denotes the names to which the reference leads in the directory of the
context, under the root or the current directory as the context. -/
theorem ofText_resolveAgainst (context reference : FileName) :
    Place.ofText (resolveAgainst reference.text (some context.text)) =
      { rooted := context.rooted, above := 0, names := (context.join reference).names } := by
  rw [resolveAgainst_fileName]
  exact Place.ofText_written (context.plain_join reference) (context.finalSegment_eq reference)

/-- A reference that the root of its context does not hold back: the context is absolute, or the
reference is relative and climbs no higher than where the context starts. -/
def Within (context reference : FileName) : Prop :=
  context.rooted = true ∨ reference.rooted = false ∧ (context.join reference).above = 0

theorem ofText_resolveAgainst_iff (context reference : FileName) :
    Place.ofText (resolveAgainst reference.text (some context.text)) = context.join reference ↔
      Within context reference := by
  have hrooted := context.join_rooted reference
  have habove := context.join_above reference
  rw [ofText_resolveAgainst, Place.ext_iff, Within]
  cases hc : context.rooted with
  | true =>
    rw [hc, Bool.or_true] at hrooted
    exact ⟨fun _ => .inl rfl, fun _ => ⟨hrooted.symm, (habove hrooted).symm, rfl⟩⟩
  | false =>
    rw [hc, Bool.or_false] at hrooted
    rw [hrooted]
    constructor
    · exact fun h => .inr ⟨h.1.symm, h.2.1.symm⟩
    · rintro (h | h)
      · cases h
      · exact ⟨h.1.symm, h.2.symm, rfl⟩

/-- Resolving a file name in another one gives the names to which it leads in the directory of that
one, absolute as the context is. The text denotes the place of the reference in the directory of the
context exactly if the root of the context does not hold the reference back, and among such
references those with different places get different texts. An absolute reference in an absolute
context denotes what it does by itself. -/
theorem resolveAgainst_join (context reference : FileName) :
    resolveAgainst reference.text (some context.text) =
        slashed context.rooted
          ((context.join reference).names ++ finalSegment reference.segments) ∧
      (Place.ofText (resolveAgainst reference.text (some context.text)) =
          context.join reference ↔ Within context reference) ∧
      (∀ other, Within context reference → Within context other →
        resolveAgainst reference.text (some context.text) =
          resolveAgainst other.text (some context.text) →
        context.join reference = context.join other) ∧
      (context.rooted = true → reference.rooted = true →
        Place.ofText (resolveAgainst reference.text (some context.text)) =
          Place.ofText reference.text) := by
  refine ⟨resolveAgainst_fileName context reference, ofText_resolveAgainst_iff context reference,
    fun other hreference hother htext => ?_, fun hcontext hreference => ?_⟩
  · calc context.join reference
        = Place.ofText (resolveAgainst reference.text (some context.text)) :=
          ((ofText_resolveAgainst_iff context reference).mpr hreference).symm
      _ = Place.ofText (resolveAgainst other.text (some context.text)) := by rw [htext]
      _ = context.join other := (ofText_resolveAgainst_iff context other).mpr hother
  · rw [(ofText_resolveAgainst_iff context reference).mpr (.inl hcontext),
      FileName.join_of_rooted hreference]

/-- A document two levels down. -/
def versioned : FileName := ⟨false, ["specs", "v1", "root.yaml"], by decide, by decide⟩

/-- A file in the directory above its context. -/
def shared : FileName := ⟨false, ["..", "shared", ".", "types.yaml"], by decide, by decide⟩

/-- The same file by another name. -/
def detour : FileName := ⟨false, ["..", "old", "..", "shared", "types.yaml"], by decide, by decide⟩

theorem resolveAgainst_join_versioned :
    Within versioned shared ∧ Within versioned detour ∧
      resolveAgainst shared.text (some versioned.text) = "specs/shared/types.yaml" ∧
      Place.ofText (resolveAgainst shared.text (some versioned.text)) = versioned.join shared ∧
      versioned.join shared = versioned.join detour := by
  have hshared : Within versioned shared := .inr ⟨rfl, by decide⟩
  have hdetour : Within versioned detour := .inr ⟨rfl, by decide⟩
  obtain ⟨htext, hplace, hsame, -⟩ := resolveAgainst_join versioned shared
  refine ⟨hshared, hdetour, htext.trans (by decide), hplace.mpr hshared,
    hsame detour hshared hdetour ?_⟩
  decide +kernel

/-- Neither the slash of an absolute reference nor a double dot that leaves the directory of a
relative context is kept. -/
theorem not_resolveAgainst_join :
    (resolveAgainst "/x" (some "specs/root.yaml") = "x" ∧
      resolveAgainst "../x" (some "root.yaml") = "x" ∧
      resolveAgainst "x" (some "root.yaml") = "x") ∧
      ¬ ∀ context reference : FileName,
        Place.ofText (resolveAgainst reference.text (some context.text)) =
          context.join reference := by
  refine ⟨by decide +kernel, fun h => ?_⟩
  let context : FileName := ⟨false, ["root.yaml"], by decide, by decide⟩
  let reference : FileName := ⟨false, ["..", "x"], by decide, by decide⟩
  have habove := congrArg Place.above (h context reference)
  rw [ofText_resolveAgainst] at habove
  exact absurd habove (by decide)

end Reference

end OpenApi
