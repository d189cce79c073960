import OpenApi.Proofs.Percent

/-!
# Names of files

A file name (`FileName`) is written as segments with slashes between them, and denotes a place
(`Place`): the names on the way to it, from the root or from as many levels above the current
directory as its double dots climb. Segments are walked one by one (`Place.walk`), as lexical
normalization has it.

* `FileName.ofText_text`: the text of a file name denotes what its segments lead to;
* `Place.ofText_written`: a place is denoted by the text of its names, if they start at the root or
  at the current directory.
-/

namespace OpenApi

open Text

/-! ## File names -/

/-- A segment of unreserved characters. -/
def PlainSegment (segment : String) : Prop :=
  segment ≠ "" ∧ ∀ c ∈ segment.toList, Parameter.isUnreserved c = true

instance : DecidablePred PlainSegment := fun segment =>
  decidable_of_iff (segment ≠ "" ∧ segment.toList.all Parameter.isUnreserved = true)
    (and_congr_right' List.all_eq_true)

/-- The name of a file, absolute or relative to a directory. -/
structure FileName where
  rooted : Bool
  segments : List String
  segments_ne_nil : segments ≠ []
  plain : ∀ segment ∈ segments, PlainSegment segment

/-- A text of segments: a slash between them, and one in front if it is absolute. -/
def slashed (rooted : Bool) (segments : List String) : String :=
  (if rooted then "/" else "") ++ "/".intercalate segments

/-- Whether the last segment is a single or double dot, so that a directory is meant. -/
def endsInDots (segments : List String) : Bool :=
  segments.getLast? == some "." || segments.getLast? == some ".."

/-- What a single or double dot leaves at the end of a path. -/
def finalSegment (segments : List String) : List String :=
  if endsInDots segments then [""] else []

namespace FileName

/-- The text of a file name. -/
def text (n : FileName) : String := slashed n.rooted n.segments

/-- The segments that lead to the directory of a file: all but the last, unless that has dots. -/
def directory (n : FileName) : List String :=
  if endsInDots n.segments then n.segments else n.segments.dropLast

end FileName

/-! ## Places -/

/-- What a file name denotes: the names that lead to it, from the root or from the directory so
many levels above the current one. -/
@[ext]
structure Place where
  rooted : Bool
  above : Nat
  names : List String
deriving DecidableEq

namespace Place

/-- The root, or the current directory. -/
def start (rooted : Bool) : Place := { rooted, above := 0, names := [] }

/-- The place to which a segment leads. Nothing is above the root. -/
def step (p : Place) (segment : String) : Place :=
  if segment = "" ∨ segment = "." then p
  else if segment = ".." then
    if p.names = [] then { p with above := if p.rooted then p.above else p.above + 1 }
    else { p with names := p.names.dropLast }
  else { p with names := p.names ++ [segment] }

/-- The place to which segments lead, one after the other. -/
def walk (p : Place) (segments : List String) : Place := segments.foldl step p

/-- The place that a text denotes. -/
def ofText (s : String) : Place := (start (startsWith "/" s)).walk (pieces '/' s)

end Place

/-- The place of one file name in the directory of another. -/
def FileName.join (context reference : FileName) : Place :=
  if reference.rooted then (Place.start true).walk reference.segments
  else ((Place.start context.rooted).walk context.directory).walk reference.segments

/-! ## Walking -/

namespace Place

variable {p : Place} {segment : String} {segments : List String}

@[simp] theorem walk_nil (p : Place) : p.walk [] = p := rfl

@[simp] theorem walk_cons (p : Place) (segment : String) (segments : List String) :
    p.walk (segment :: segments) = (p.step segment).walk segments := rfl

theorem walk_append (p : Place) (front back : List String) :
    p.walk (front ++ back) = (p.walk front).walk back := List.foldl_append

theorem step_double_dot (p : Place) :
    (p.step "..").names = p.names.dropLast := by
  rw [step, if_neg (by decide), if_pos rfl]
  split
  next h => rw [h, List.dropLast_nil]
  next => rfl

theorem step_dot (p : Place) : p.step "." = p := if_pos (.inr rfl)

theorem step_name (h : segment ≠ "") (hdot : segment ≠ ".") (hdots : segment ≠ "..") (p : Place) :
    p.step segment = { p with names := p.names ++ [segment] } := by
  rw [step, if_neg (not_or.mpr ⟨h, hdot⟩), if_neg hdots]

@[simp] theorem step_rooted (p : Place) (segment : String) :
    (p.step segment).rooted = p.rooted := by
  rw [step]
  split_ifs <;> rfl

@[simp] theorem walk_rooted (p : Place) (segments : List String) :
    (p.walk segments).rooted = p.rooted := by
  induction segments generalizing p with
  | nil => rfl
  | cons segment segments ih => rw [walk_cons, ih, step_rooted]

theorem step_above (h : p.rooted = true) (segment : String) :
    (p.step segment).above = p.above := by
  rw [step]
  split_ifs <;> rfl

/-- Nothing climbs above the root. -/
theorem walk_above (h : p.rooted = true) (segments : List String) :
    (p.walk segments).above = p.above := by
  induction segments generalizing p with
  | nil => rfl
  | cons segment segments ih =>
    rw [walk_cons, ih (by rw [step_rooted, h]), step_above h]

/-- The names of a place are plain segments without single and double dots. -/
def Plain (p : Place) : Prop := ∀ name ∈ p.names, PlainSegment name ∧ name ≠ "." ∧ name ≠ ".."

theorem plain_start (rooted : Bool) : (start rooted).Plain := by
  intro name h
  cases h

theorem Plain.step (h : p.Plain) (hsegment : PlainSegment segment) : (p.step segment).Plain := by
  by_cases hdot : segment = "."
  · rwa [hdot, step_dot]
  by_cases hdots : segment = ".."
  · intro name hname
    rw [hdots, step_double_dot] at hname
    exact h name (List.dropLast_subset _ hname)
  · intro name hname
    rw [step_name hsegment.1 hdot hdots, List.mem_append, List.mem_singleton] at hname
    rcases hname with hname | rfl
    · exact h name hname
    · exact ⟨hsegment, hdot, hdots⟩

theorem Plain.walk (h : p.Plain) (hsegments : ∀ segment ∈ segments, PlainSegment segment) :
    (p.walk segments).Plain := by
  induction segments generalizing p with
  | nil => exact h
  | cons segment segments ih =>
    exact ih (h.step (hsegments segment List.mem_cons_self))
      fun s hs => hsegments s (List.mem_cons_of_mem _ hs)

/-- Unreserved characters are in the names of a place, with nothing or an empty segment after
them. -/
theorem Plain.unreserved (h : p.Plain) {last : List String} (hlast : last = [] ∨ last = [""]) :
    ∀ s ∈ p.names ++ last, ∀ c ∈ s.toList, Parameter.isUnreserved c = true := by
  intro s hs
  rcases List.mem_append.mp hs with hs | hs
  · exact (h s hs).1.2
  · obtain rfl | rfl := hlast
    · cases hs
    · rw [List.mem_singleton.mp hs]
      exact fun _ hc => absurd hc List.not_mem_nil

/-- Names are walked by adding them. -/
theorem walk_names {names : List String}
    (h : ∀ name ∈ names, name ≠ "" ∧ name ≠ "." ∧ name ≠ "..") (p : Place) :
    p.walk names = { p with names := p.names ++ names } := by
  induction names generalizing p with
  | nil => rw [walk_nil, List.append_nil]
  | cons name names ih =>
    obtain ⟨hne, hdot, hdots⟩ := h name List.mem_cons_self
    rw [walk_cons, step_name hne hdot hdots, ih fun n hn => h n (List.mem_cons_of_mem _ hn),
      List.append_assoc, List.singleton_append]

end Place

/-! ## Places of file names -/

theorem finalSegment_cons {rest : List String} (segment : String) (hne : rest ≠ []) :
    finalSegment (segment :: rest) = finalSegment rest := by
  rw [finalSegment, endsInDots, List.getLast?_cons_of_ne_nil hne, finalSegment, endsInDots]

namespace FileName

/-- The last segment of a name is the last name to which it leads, unless that has dots. -/
theorem names_walk_segments {n : FileName} (h : endsInDots n.segments = false) (p : Place) :
    (p.walk n.segments).names = (p.walk n.segments.dropLast).names ++
      [n.segments.getLast n.segments_ne_nil] := by
  have hsplit := List.dropLast_append_getLast n.segments_ne_nil
  have hlast := n.plain _ (List.getLast_mem n.segments_ne_nil)
  rw [endsInDots, List.getLast?_eq_some_getLast n.segments_ne_nil, Bool.or_eq_false_iff,
    beq_eq_false_iff_ne, beq_eq_false_iff_ne] at h
  conv_lhs => rw [← hsplit]
  rw [Place.walk_append, Place.walk_cons, Place.walk_nil, Place.step_name hlast.1
    (fun hdot => h.1 (congrArg some hdot)) fun hdots => h.2 (congrArg some hdots)]

/-- The names in front of the last one lead to the directory of a file name. -/
theorem dropLast_walk_segments (n : FileName) (p : Place) :
    ((p.walk n.segments).names ++ finalSegment n.segments).dropLast =
      (p.walk n.directory).names := by
  rw [finalSegment, FileName.directory]
  cases hdots : endsInDots n.segments with
  | true => exact List.dropLast_concat
  | false =>
    rw [if_neg Bool.false_ne_true, if_neg Bool.false_ne_true, List.append_nil,
      names_walk_segments hdots, List.dropLast_concat]

theorem plain_directory (n : FileName) : ∀ segment ∈ n.directory, PlainSegment segment := by
  intro segment hsegment
  rw [directory] at hsegment
  split at hsegment
  · exact n.plain segment hsegment
  · exact n.plain segment (List.dropLast_subset _ hsegment)

variable (context reference : FileName)

theorem plain_join : (context.join reference).Plain := by
  rw [join]
  split
  · exact (Place.plain_start true).walk reference.plain
  · exact ((Place.plain_start context.rooted).walk context.plain_directory).walk reference.plain

theorem join_rooted :
    (context.join reference).rooted = (reference.rooted || context.rooted) := by
  rw [join]
  cases reference.rooted with
  | true => exact Place.walk_rooted _ _
  | false =>
    rw [if_neg Bool.false_ne_true, Place.walk_rooted, Place.walk_rooted]
    rfl

/-- Nothing climbs above the root. -/
theorem join_above (h : (context.join reference).rooted = true) :
    (context.join reference).above = 0 := by
  have hroot : (Place.start true).rooted = true := rfl
  rw [join_rooted] at h
  rw [join]
  cases hr : reference.rooted with
  | true => exact Place.walk_above hroot _
  | false =>
    rw [hr, Bool.false_or] at h
    rw [if_neg Bool.false_ne_true, h,
      Place.walk_above (by rw [Place.walk_rooted]; rfl), Place.walk_above hroot]
    rfl

/-- There is a last name or an empty segment in its place. -/
theorem finalSegment_eq : finalSegment reference.segments = [] ∧
    (context.join reference).names ≠ [] ∨ finalSegment reference.segments = [""] := by
  rw [finalSegment]
  cases hdots : endsInDots reference.segments with
  | true => exact .inr rfl
  | false =>
    refine .inl ⟨rfl, ?_⟩
    rw [join]
    split <;> rw [names_walk_segments hdots] <;> exact List.concat_ne_nil _ _

end FileName

/-! ## Texts of segments -/

theorem PlainSegment.notMem_slash {segment : String} (h : PlainSegment segment) :
    '/' ∉ segment.toList :=
  fun hc => absurd (h.2 _ hc) (by decide)

variable {rooted : Bool} {segments : List String}

/-- A slash in front is what an empty first segment leaves. -/
theorem slashed_eq (hne : segments ≠ []) :
    slashed rooted segments = "/".intercalate ((if rooted then [""] else []) ++ segments) := by
  obtain ⟨segment, segments, rfl⟩ := List.exists_cons_of_ne_nil hne
  cases rooted with
  | false => exact String.empty_append
  | true =>
    show "/" ++ _ = "/".intercalate ("" :: segment :: segments)
    rw [String.intercalate_cons_cons, String.empty_append]

theorem splitOn_slashes {parts : List String} (hne : parts ≠ [])
    (h : ∀ part ∈ parts, '/' ∉ part.toList) :
    splitOn '/' ("/".intercalate parts).toList = parts.map String.toList := by
  have htext : ("/".intercalate parts).toList = ['/'].intercalate (parts.map String.toList) :=
    String.toList_intercalate
  rw [htext, splitOn_intercalate (by simp [hne])]
  intro part hpart
  obtain ⟨s, hs, rfl⟩ := List.mem_map.mp hpart
  exact h s hs

theorem pieces_intercalate {parts : List String} (hne : parts ≠ [])
    (h : ∀ part ∈ parts, '/' ∉ part.toList) : pieces '/' ("/".intercalate parts) = parts := by
  rw [pieces, splitOn_slashes hne h, List.map_map]
  simp

/-- A text of segments begins with a slash if it is absolute, as long as no segment is empty but
the last. -/
theorem startsWith_slashed (hne : segments ≠ []) (h : ∀ s ∈ segments, '/' ∉ s.toList)
    (hempty : "" ∉ segments.dropLast) : startsWith "/" (slashed rooted segments) = rooted := by
  cases rooted with
  | true =>
    show List.isPrefixOf ['/'] ("/" ++ "/".intercalate segments).toList = true
    rw [String.toList_append]
    rfl
  | false =>
    have hpieces := pieces_intercalate hne h
    show List.isPrefixOf ['/'] ("" ++ "/".intercalate segments).toList = false
    rw [String.empty_append]
    match hcs : ("/".intercalate segments).toList with
    | [] => rfl
    | c :: cs =>
      by_cases hc : c = '/'
      · -- the piece in front of the slash would be empty, and not the last
        rw [pieces, hcs, hc, splitOn, if_pos rfl] at hpieces
        obtain ⟨piece, rest, hrest⟩ := List.exists_cons_of_ne_nil (splitOn_ne_nil '/' cs)
        rw [← hpieces, hrest] at hempty
        exact absurd List.mem_cons_self hempty
      · simp [List.isPrefixOf, Ne.symm hc]

/-- The text of segments denotes what they lead to. -/
theorem Place.ofText_slashed (hne : segments ≠ []) (h : ∀ s ∈ segments, '/' ∉ s.toList)
    (hempty : "" ∉ segments.dropLast) :
    ofText (slashed rooted segments) = (start rooted).walk segments := by
  rw [ofText, startsWith_slashed hne h hempty, slashed_eq hne, pieces_intercalate (by simp [hne])]
  · cases rooted with
    | false => rfl
    | true => rfl
  · intro s hs
    rw [List.mem_append] at hs
    rcases hs with hs | hs
    · cases rooted with
      | false => cases hs
      | true => rw [List.mem_singleton.mp hs]; exact List.not_mem_nil
    · exact h s hs

namespace FileName

theorem notMem_dropLast (n : FileName) : "" ∉ n.segments.dropLast :=
  fun h => (n.plain "" (List.dropLast_subset _ h)).1 rfl

theorem startsWith_text (n : FileName) : startsWith "/" n.text = n.rooted :=
  startsWith_slashed n.segments_ne_nil (fun s hs => (n.plain s hs).notMem_slash) n.notMem_dropLast

/-- A file name denotes what its segments lead to. -/
theorem ofText_text (n : FileName) :
    Place.ofText n.text = (Place.start n.rooted).walk n.segments :=
  Place.ofText_slashed n.segments_ne_nil (fun s hs => (n.plain s hs).notMem_slash)
    n.notMem_dropLast

/-- The place of an absolute file name is the same in every directory. -/
theorem join_of_rooted {reference : FileName} (h : reference.rooted = true) (context : FileName) :
    context.join reference = Place.ofText reference.text := by
  rw [join, if_pos h, ofText_text, h]

end FileName

/-- The names of a place, with nothing or an empty segment after them, denote that place if it is
under the root or the current directory. -/
theorem Place.ofText_written {p : Place} (h : p.Plain) {last : List String}
    (hlast : last = [] ∧ p.names ≠ [] ∨ last = [""]) :
    ofText (slashed rooted (p.names ++ last)) = { rooted, above := 0, names := p.names } := by
  have hslash : ∀ s ∈ p.names ++ last, '/' ∉ s.toList := fun s hs hc =>
    absurd (h.unreserved (hlast.imp_left And.left) s hs _ hc) (by decide)
  have hwalk : (start rooted).walk p.names = { rooted, above := 0, names := p.names } :=
    walk_names (fun name hn => ⟨(h name hn).1.1, (h name hn).2⟩) _
  have hnames : "" ∉ p.names := fun hmem => (h "" hmem).1.1 rfl
  obtain ⟨rfl, hne⟩ | rfl := hlast
  · rw [List.append_nil] at hslash ⊢
    rw [ofText_slashed hne hslash fun hmem => hnames (List.dropLast_subset _ hmem), hwalk]
  · rw [ofText_slashed (by simp) hslash (by rwa [List.dropLast_concat]), walk_append, hwalk]
    rfl

/-! ## Characters of file names -/

/-- The characters of file names: slashes, and the unreserved ones of segments. -/
def IsFileNameCharacter (c : Char) : Prop := c = '/' ∨ Parameter.isUnreserved c = true

namespace IsFileNameCharacter

variable {c : Char}

theorem toNat (h : IsFileNameCharacter c) : 0x21 ≤ c.toNat ∧ c.toNat < 0x7F := by
  obtain rfl | h := h
  · decide
  · exact Parameter.toNat_of_isUnreserved h

theorem isBlank (h : IsFileNameCharacter c) : Text.isBlank c = false :=
  isBlank_of_visible h.toNat.1 h.toNat.2

/-- What has a meaning of its own in a URL is no character of file names but the slash. -/
theorem ne_mark (h : IsFileNameCharacter c) (mark : Char)
    (hmark : Parameter.isUnreserved mark = false) (hslash : mark ≠ '/') : c ≠ mark := by
  rintro rfl
  obtain hc | hc := h
  · exact hslash hc
  · rw [hmark] at hc
    cases hc

end IsFileNameCharacter

namespace FileName

theorem mem_slashes {segments : List String}
    (h : ∀ s ∈ segments, ∀ c ∈ s.toList, Parameter.isUnreserved c = true) {c : Char}
    (hc : c ∈ ("/".intercalate segments).toList) : IsFileNameCharacter c := by
  induction segments with
  | nil => cases hc
  | cons segment rest ih =>
    have hsegment {c : Char} (hc : c ∈ segment.toList) : IsFileNameCharacter c :=
      .inr (h segment List.mem_cons_self c hc)
    cases rest with
    | nil => exact hsegment (by rwa [String.intercalate_singleton] at hc)
    | cons next rest =>
      rw [String.intercalate_cons_cons, String.toList_append, String.toList_append,
        List.mem_append, List.mem_append] at hc
      obtain (hc | hc) | hc := hc
      · exact hsegment hc
      · exact .inl (List.mem_singleton.mp hc)
      · exact ih (fun s hs => h s (List.mem_cons_of_mem _ hs)) hc

theorem mem_text {n : FileName} {c : Char} (h : c ∈ n.text.toList) : IsFileNameCharacter c := by
  rw [text, slashed, String.toList_append, List.mem_append] at h
  obtain h | h := h
  · split at h
    · exact .inl (List.mem_singleton.mp h)
    · cases h
  · exact mem_slashes (fun s hs => (n.plain s hs).2) h

/-- The text behind the slash of an absolute name begins with its first segment. -/
theorem exists_cons (n : FileName) : ∃ c cs, ("/".intercalate n.segments).toList = c :: cs ∧
    Parameter.isUnreserved c = true := by
  obtain ⟨segment, rest, hsegments⟩ := List.exists_cons_of_ne_nil n.segments_ne_nil
  obtain ⟨hne, hplain⟩ := n.plain segment (hsegments ▸ List.mem_cons_self)
  obtain ⟨c, cs, hcs⟩ := List.exists_cons_of_ne_nil (mt String.toList_eq_nil_iff.mp hne)
  rw [hcs] at hplain
  rw [hsegments]
  cases rest with
  | nil =>
    rw [String.intercalate_singleton, hcs]
    exact ⟨c, cs, rfl, hplain c List.mem_cons_self⟩
  | cons next rest =>
    rw [String.intercalate_cons_cons, String.toList_append, String.toList_append, hcs]
    exact ⟨c, _, rfl, hplain c List.mem_cons_self⟩

theorem text_ne_empty (n : FileName) : n.text ≠ "" := by
  intro h
  obtain ⟨c, cs, hcs, -⟩ := n.exists_cons
  have hmem : c ∈ n.text.toList := by
    rw [text, slashed, String.toList_append, hcs]
    exact List.mem_append_right _ List.mem_cons_self
  rw [h] at hmem
  cases hmem

end FileName

end OpenApi
