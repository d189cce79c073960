import OpenApi.Proofs.Uri.Plain

/-!
# Texts of URLs

The parts of a URL that is read are plain (`Uri.PlainParts`). Text without hierarchy is the
exception, in which a space stays, but not at the end of the URL.

* `Uri.read_read?`: what is read as a URL, absolute or against another, is so, and has no fragment
  that is not written;
* `Uri.WellRead.plain_text`, `Uri.BareRead.trim_text`: then no white space is around the text of the
  URL, nor `#` in it.
-/

namespace OpenApi.Uri

open Text

/-! ## URLs -/

/-- The parts of a URL in front of its fragment are plain, text without hierarchy apart, which the
URLs of special schemes do not have. -/
structure PlainParts (u : Uri) : Prop where
  scheme : u.scheme ≠ "" ∧ Plain u.scheme
  hierarchy : isSpecial u.scheme = true → ∃ names, u.path = .segments names
  authority : ∀ a ∈ u.authority, Plain a.text
  names : PlainNames u.path.names
  query : ∀ text ∈ u.query, Plain text

/-- A URL with a hierarchy of names, as a text is read: with plain parts, and without fragment if
there is none in the text. -/
structure WellRead (cs : List Char) (u : Uri) : Prop extends PlainParts u where
  segments : ∃ names, u.path = .segments names
  fragment : '#' ∉ cs → u.fragment = none

/-- A URL with text in place of a hierarchy, as a text without fragment is read. If no query
follows, that text ends as what is read. -/
structure BareRead (cs : List Char) (u : Uri) : Prop where
  fragment : u.fragment = none
  bare : ∃ text, u.path = .bare text ∧ '#' ∉ text.toList ∧
    (u.query = none → (∀ c ∈ cs.getLast?, 0x20 < c.toNat) →
      ∀ c ∈ text.toList.getLast?, isBlank c = false)

/-- What is read of the end of a text is read of the text. -/
theorem WellRead.of_suffix {cs ds : List Char} {u : Uri} (h : WellRead ds u) (hs : ds <:+ cs) :
    WellRead cs u :=
  { h with fragment := fun hcs => h.fragment fun hd => hcs (hs.mem hd) }

theorem BareRead.of_suffix {cs ds : List Char} {u : Uri} (h : BareRead ds u) (hs : ds <:+ cs) :
    BareRead cs u where
  fragment := h.fragment
  bare := by
    obtain ⟨text, hp, hmark, hlast⟩ := h.bare
    refine ⟨text, hp, hmark, fun hquery hends => hlast hquery fun c hc => hends c ?_⟩
    obtain ⟨front, rfl⟩ := hs
    rw [Option.mem_def] at hc ⊢
    rw [List.getLast?_append, hc, Option.some_or]

theorem plain_readTail (scheme : String) (cs : List Char) :
    ∀ text ∈ (readTail scheme cs).1, Plain text := by
  intro text ht
  rw [readTail.eq_def] at ht
  split at ht
  · cases ht
    exact Percent.plain_encodeChars fun c _ h => plain_of_keptInQuery h
  · cases ht
  · cases ht

theorem readTail_fragment {scheme : String} {cs : List Char} (h : '#' ∉ cs) :
    (readTail scheme cs).2 = none := by
  rw [readTail.eq_def]
  split
  next rest =>
    split
    next rest' hrest =>
      have hmark : '#' ∈ rest.dropWhile (· != '#') := hrest ▸ List.mem_cons_self
      exact absurd (List.mem_cons_of_mem _ ((List.dropWhile_suffix _).mem hmark)) h
    · rfl
  next rest => exact absurd List.mem_cons_self h
  · rfl

variable {scheme : String} {cs : List Char} {authority : Option Authority} {names : List String}

theorem wellRead_withTail (hs : scheme ≠ "" ∧ Plain scheme)
    (ha : ∀ a ∈ authority, Plain a.text) (hn : PlainNames names) (cs : List Char) :
    WellRead cs (withTail scheme authority (.segments names) cs) where
  scheme := hs
  hierarchy _ := ⟨_, rfl⟩
  authority := ha
  names := hn
  query := plain_readTail _ _
  segments := ⟨_, rfl⟩
  fragment h := readTail_fragment fun hd => h ((List.dropWhile_suffix _).mem hd)

theorem wellRead_withPath (hs : scheme ≠ "" ∧ Plain scheme)
    (ha : ∀ a ∈ authority, Plain a.text) (hn : PlainNames names) (cs : List Char) :
    WellRead cs (withPath scheme authority names cs) :=
  wellRead_withTail hs ha (plainNames_readSegments hn cs) cs

theorem wellRead_withPathStart (hs : scheme ≠ "" ∧ Plain scheme)
    (ha : ∀ a ∈ authority, Plain a.text) (cs : List Char) :
    WellRead cs (withPathStart scheme authority cs) := by
  rw [withPathStart.eq_def]
  split
  · refine ⟨⟨hs, fun _ => ⟨_, rfl⟩, ha, ?_, fun _ h => by cases h⟩, ⟨_, rfl⟩, fun _ => rfl⟩
    show PlainNames (if isSpecial scheme then [""] else [])
    split
    · exact plainNames_singleton plain_empty
    · exact plainNames_nil
  · split
    · exact (wellRead_withPath hs ha plainNames_nil _).of_suffix (List.suffix_cons _ _)
    · split
      · exact wellRead_withTail hs ha plainNames_nil _
      · exact wellRead_withPath hs ha plainNames_nil _

/-! ### Authorities -/

theorem plain_userInfoText (cs : List Char) : Plain (userInfoText cs) := by
  have hencoded (part : List Char) :
      Plain (String.ofList (Percent.encodeChars keptInUserInfo part)) :=
    Percent.plain_encodeChars fun c _ h => plain_of_keptInUserInfo h
  rw [userInfoText.eq_def]
  split
  · exact hencoded _
  · refine (hencoded _).append ?_
    split
    · exact plain_empty
    · exact Plain.append (by decide) (hencoded _)

theorem plain_authorityText {a : Authority} (huser : Plain a.userInfo) (hhost : Plain a.host) :
    Plain a.text := by
  have hname : Plain (if a.userInfo.isEmpty then "" else a.userInfo ++ "@") := by
    split
    · exact plain_empty
    · exact huser.append (by decide)
  refine ((Plain.append (by decide) hname).append hhost).append ?_
  split
  · exact Plain.append (by decide) (plain_toDigits (by decide) (by decide) _)
  · exact plain_empty

theorem plain_noHost : ∀ a ∈ noHost, Plain a.text := by
  intro a ha
  obtain rfl : {} = a := Option.mem_some.mp ha
  decide

theorem suffix_cutLastAt? {front back : List Char} (h : cutLastAt? cs = some (front, back)) :
    back <:+ cs := by
  obtain ⟨⟨back', front'⟩, hcut, he⟩ := Option.map_eq_some_iff.mp h
  cases he
  have hcs := congrArg List.reverse (cut?_eq_some hcut).1
  rw [List.reverse_reverse, List.reverse_append, List.reverse_cons, List.append_assoc,
    List.singleton_append] at hcs
  exact ⟨front'.reverse ++ ['@'], by rw [hcs, List.append_assoc]; rfl⟩

theorem takeHost_append (bracketed : Bool) (cs : List Char) :
    (takeHost bracketed cs).1 ++ (takeHost bracketed cs).2 = cs := by
  induction cs generalizing bracketed with
  | nil => rfl
  | cons c rest ih =>
    rw [takeHost]
    split
    · rfl
    · exact congrArg (c :: ·) (ih _)

theorem suffix_readPort? {port : Option Nat} {rest : List Char}
    (h : readPort? scheme cs = some (port, rest)) : rest <:+ cs := by
  simp only [readPort?] at h
  split at h
  · cases h
  · split at h <;> cases h <;> exact List.dropWhile_suffix _

/-- The host is plain, and what follows host and port is the end of what is read. -/
theorem hostAndPort?_eq_some {host : String} {port : Option Nat} {rest : List Char}
    (h : hostAndPort? scheme cs = some (host, port, rest)) : Plain host ∧ rest <:+ cs := by
  have hafter : (takeHost false cs).2 <:+ cs := ⟨_, takeHost_append false cs⟩
  simp only [hostAndPort?] at h
  split at h
  · cases h
  · cases hrest : (takeHost false cs).2 with
    | nil =>
      simp only [hrest] at h
      split at h <;> obtain ⟨_, hhost, h⟩ := Option.bind_eq_some_iff.mp h <;> cases h
      · exact ⟨Host.plain_special? hhost, List.nil_suffix⟩
      · exact ⟨Host.plain_general? hhost, List.nil_suffix⟩
    | cons mark beyond =>
      have hbeyond : beyond <:+ cs := (List.suffix_cons mark beyond).trans (hrest ▸ hafter)
      simp only [hrest] at h
      split at h <;> obtain ⟨_, hhost, h⟩ := Option.bind_eq_some_iff.mp h <;>
        obtain ⟨⟨_, _⟩, hport, h⟩ := Option.bind_eq_some_iff.mp h <;> cases h
      · exact ⟨Host.plain_special? hhost, (suffix_readPort? hport).trans hbeyond⟩
      · exact ⟨Host.plain_general? hhost, (suffix_readPort? hport).trans hbeyond⟩

theorem wellRead_fromAuthority? (hs : scheme ≠ "" ∧ Plain scheme) {u : Uri}
    (h : fromAuthority? scheme cs = some u) : WellRead cs u := by
  simp only [fromAuthority?] at h
  split at h
  · cases h
  obtain ⟨⟨host, port, rest⟩, hhost, h⟩ := Option.bind_eq_some_iff.mp h
  split at h
  · cases h
  cases h
  obtain ⟨hplain, hrest⟩ := hostAndPort?_eq_some hhost
  have hinside : rest <:+ cs.takeWhile (!endsAuthority (isSpecial scheme) ·) := by
    cases hcut : cutLastAt? (cs.takeWhile (!endsAuthority (isSpecial scheme) ·)) with
    | none => simpa only [hcut, Option.getD_none] using hrest
    | some parts =>
      rw [hcut] at hrest
      exact hrest.trans (suffix_cutLastAt? hcut)
  refine (wellRead_withPathStart hs (fun a ha => ?_) _).of_suffix ?_
  · obtain rfl := Option.mem_some.mp ha
    exact plain_authorityText (plain_userInfoText _) hplain
  · obtain ⟨front, hfront⟩ := hinside
    refine ⟨front, ?_⟩
    rw [← List.append_assoc, hfront, List.takeWhile_append_dropWhile]

/-! ### Files -/

theorem wellRead_fileFromHost? {u : Uri} (h : fileFromHost? cs = some u) : WellRead cs u := by
  have hfile : "file" ≠ "" ∧ Plain "file" := by decide
  simp only [fileFromHost?] at h
  split at h
  · cases h
    exact wellRead_withPath hfile plain_noHost plainNames_nil cs
  split at h
  · cases h
    exact (wellRead_withPathStart hfile plain_noHost _).of_suffix (List.dropWhile_suffix _)
  obtain ⟨host, hhost, rfl⟩ := Option.map_eq_some_iff.mp h
  have hauthority : ∀ a ∈ some ({ host } : Authority), Plain a.text := by
    intro a ha
    obtain rfl := Option.mem_some.mp ha
    exact plain_authorityText plain_empty (Host.plain_special? hhost)
  have hread := (wellRead_withPathStart hfile hauthority
    (cs.dropWhile fun c => !endsAuthority true c)).of_suffix (List.dropWhile_suffix _)
  split
  · exact { hread with authority := plain_noHost }
  · exact hread

/-- A URL that others are read against, and has a hierarchy of names. -/
structure Base (u : Uri) : Prop extends PlainParts u where
  segments : ∃ names, u.path = .segments names

variable {base u : Uri}

/-- The base with another query and fragment. -/
theorem Base.wellRead (hb : Base base) {query fragment : Option String}
    (hq : ∀ text ∈ query, Plain text) (hf : '#' ∉ cs → fragment = none) :
    WellRead cs { base with query, fragment } where
  scheme := hb.scheme
  hierarchy := hb.hierarchy
  authority := hb.authority
  names := hb.names
  query := hq
  segments := hb.segments
  fragment := hf

theorem Base.wellRead_tail (hb : Base base) (scheme : String) (cs : List Char) :
    WellRead cs { base with
      query := (readTail scheme cs).1
      fragment := (readTail scheme cs).2 } :=
  hb.wellRead (plain_readTail _ _) readTail_fragment

theorem Base.wellRead_fragment (hb : Base base) (rest : List Char) :
    WellRead ('#' :: rest) { base with fragment := some (fragmentText rest) } :=
  hb.wellRead hb.query fun h => absurd List.mem_cons_self h

theorem wellRead_relativeToFile {base : Option Uri} (hb : ∀ b ∈ base, Base b)
    (h : file?.relativeToFile base cs = some u) : WellRead cs u := by
  have hfile : "file" ≠ "" ∧ Plain "file" := by decide
  rw [file?.relativeToFile.eq_def] at h
  split at h
  · cases h
    exact wellRead_withPath hfile plain_noHost plainNames_nil cs
  next base =>
    have hb := hb base rfl
    split at h
    · cases h
      exact hb.wellRead hb.query fun _ => rfl
    next rest =>
      rw [← Option.some.inj h]
      exact hb.wellRead_tail "file" ('?' :: rest)
    · cases h
      exact hb.wellRead_fragment _
    · split at h
      · cases h
        exact wellRead_withPath hfile plain_noHost plainNames_nil _
      · cases h
        exact wellRead_withTail hfile hb.authority (plainNames_readFromFile hb.names _) _

theorem wellRead_rooted {base : Option Uri} (hb : ∀ b ∈ base, Base b) (cs : List Char) :
    WellRead cs (file?.rooted base cs) := by
  have hfile : "file" ≠ "" ∧ Plain "file" := by decide
  rw [file?.rooted]
  split
  · exact wellRead_withPath hfile plain_noHost plainNames_nil cs
  split
  next drive hdrive =>
    refine wellRead_withPath hfile plain_noHost (plainNames_singleton ?_) cs
    have hmem := List.mem_of_head? (Option.filter_eq_some_iff.mp hdrive).1
    cases base with
    | none => cases hmem
    | some base => exact (hb base rfl).names drive hmem
  · refine wellRead_withPath hfile (fun a ha => ?_) plainNames_nil cs
    rcases Option.or_eq_some_iff.mp ha with ha | ⟨-, ha⟩
    · obtain ⟨base, hbase, ha⟩ := Option.bind_eq_some_iff.mp ha
      exact (hb base hbase).authority a ha
    · exact plain_noHost a ha

theorem wellRead_file? {base : Option Uri} (hb : ∀ b ∈ base, Base b)
    (h : file? base cs = some u) : WellRead cs u := by
  rw [file?.eq_def] at h
  split at h
  next a b rest =>
    split at h
    · exact (wellRead_fileFromHost? h).of_suffix ⟨[a, b], rfl⟩
    · split at h
      · cases h
        exact (wellRead_rooted hb _).of_suffix (List.suffix_cons _ _)
      · exact wellRead_relativeToFile hb h
  · split at h
    · cases h
      exact (wellRead_rooted hb _).of_suffix List.nil_suffix
    · exact wellRead_relativeToFile hb h
  · exact wellRead_relativeToFile hb h

/-! ### References -/

theorem wellRead_relative? (hb : Base base) (h : relative? base cs = some u) : WellRead cs u := by
  rw [relative?.eq_def] at h
  split at h
  · cases h
    exact hb.wellRead hb.query fun _ => rfl
  next rest =>
    rw [← Option.some.inj h]
    exact hb.wellRead_tail base.scheme ('?' :: rest)
  · cases h
    exact hb.wellRead_fragment _
  next c rest _ _ =>
    have rooted (ds : List Char) : WellRead ds (withPath base.scheme base.authority [] ds) :=
      wellRead_withPath hb.scheme hb.authority plainNames_nil ds
    split at h
    · split at h
      next d after =>
        split at h
        · exact (wellRead_fromAuthority? hb.scheme h).of_suffix ⟨[c, d], rfl⟩
        split at h
        · refine (wellRead_fromAuthority? hb.scheme h).of_suffix ?_
          exact (List.dropWhile_suffix _).trans ⟨[c, d], rfl⟩
        · cases h
          exact (rooted _).of_suffix (List.suffix_cons _ _)
      · cases h
        exact (rooted _).of_suffix List.nil_suffix
    · cases h
      exact wellRead_withPath hb.scheme hb.authority
        (hb.names.of_subset (List.dropLast_subset _)) _

/-- Where neither query nor fragment is read, the whole text is in front of them. -/
theorem takeWhile_eq_self_of_readTail (hcs : '#' ∉ cs)
    (h : (readTail scheme (cs.dropWhile (!endsPath ·))).1 = none) :
    cs.takeWhile (!endsPath ·) = cs := by
  cases hd : cs.dropWhile (!endsPath ·) with
  | nil => exact List.takeWhile_eq_self_iff.mpr (List.dropWhile_eq_nil_iff.mp hd)
  | cons c rest =>
    have hmem : c ∈ cs := (List.dropWhile_suffix _).mem (hd ▸ List.mem_cons_self)
    have hends : endsPath c = true := by
      have hne : cs.dropWhile (!endsPath ·) ≠ [] := hd ▸ List.cons_ne_nil c rest
      simpa [hd] using List.head_dropWhile_not (!endsPath ·) hne
    simp only [endsPath, Bool.or_eq_true, beq_iff_eq] at hends
    rcases hends with rfl | rfl
    · rw [hd] at h
      cases h
    · exact absurd hmem hcs

theorem plainParts_bare (hs : scheme ≠ "" ∧ Plain scheme) (hspecial : isSpecial scheme = false)
    (text : String) {query fragment : Option String} (hq : ∀ text ∈ query, Plain text) :
    PlainParts { scheme, authority := none, path := .bare text, query, fragment } where
  scheme := hs
  hierarchy h := by
    rw [show isSpecial scheme = true from h] at hspecial
    cases hspecial
  authority _ h := by cases h
  names := plainNames_nil
  query := hq

theorem bareRead (hcs : '#' ∉ cs) : BareRead cs {
    scheme
    authority := none
    path := .bare (String.ofList (Percent.encodeChars keptInBarePath (cs.takeWhile (!endsPath ·))))
    query := (readTail scheme (cs.dropWhile (!endsPath ·))).1
    fragment := (readTail scheme (cs.dropWhile (!endsPath ·))).2 } where
  fragment := readTail_fragment fun hd => hcs ((List.dropWhile_suffix _).mem hd)
  bare := by
    refine ⟨_, rfl, fun hmark => ?_, fun hquery hlast c hc => ?_⟩
    · rw [String.toList_ofList] at hmark
      rcases Percent.mem_encodeChars hmark with ⟨hmark, -⟩ | hmark
      · exact absurd (List.mem_takeWhile_imp hmark) (by decide)
      · exact absurd hmark (by decide)
    · rw [takeWhile_eq_self_of_readTail hcs hquery, String.toList_ofList] at hc
      rcases Percent.getLast?_encodeChars hc with ⟨hc, hkeep⟩ | hc | rfl
      · simp only [keptInBarePath, keepsExcept, Bool.and_eq_true, decide_eq_true_eq] at hkeep
        exact isBlank_of_visible (hlast c hc) hkeep.1.2
      · exact Parameter.isBlank_of_isUnreserved (by simp [Parameter.isUnreserved, hc])
      · decide

theorem read_general? (hs : scheme ≠ "" ∧ Plain scheme) (hspecial : isSpecial scheme = false)
    (h : general? scheme cs = some u) :
    WellRead cs u ∨ PlainParts u ∧ ('#' ∉ cs → BareRead cs u) := by
  rw [general?.eq_def] at h
  split at h
  · exact .inl ((wellRead_fromAuthority? hs h).of_suffix ⟨['/', '/'], rfl⟩)
  · cases h
    exact .inl ((wellRead_withPath hs (fun _ h => by cases h) plainNames_nil _).of_suffix
      (List.suffix_cons _ _))
  · rw [← Option.some.inj h]
    exact .inr ⟨plainParts_bare hs hspecial _ (plain_readTail _ _), bareRead⟩

/-- What follows a scheme has a hierarchy, or is text that is read without a base, too. -/
theorem read_afterScheme? {base : Option Uri} (hb : ∀ b ∈ base, PlainParts b)
    (hs : scheme ≠ "" ∧ Plain scheme) (h : afterScheme? base scheme cs = some u) :
    WellRead cs u ∨ PlainParts u ∧ afterScheme? none scheme cs = some u ∧
      ('#' ∉ cs → BareRead cs u) := by
  have hbase {special : String} (hspecial : isSpecial special = true) :
      ∀ b ∈ base.filter (·.scheme == special), Base b := by
    intro b hmem
    obtain ⟨hmem, he⟩ := Option.filter_eq_some_iff.mp hmem
    exact ⟨hb b hmem, (hb b hmem).hierarchy (by rwa [eq_of_beq he])⟩
  rw [afterScheme?] at h
  split at h
  · exact .inl (wellRead_file? (hbase (by decide)) h)
  next hfile =>
    split at h
    next hspecial =>
      have hauthority (h : fromAuthority? scheme
          (cs.drop (cs.takeWhile (isSlash true)).length) = some u) : WellRead cs u :=
        (wellRead_fromAuthority? hs h).of_suffix (List.drop_suffix _ _)
      simp only at h
      split at h
      next base hmem =>
        split at h
        · exact .inl (wellRead_relative? (hbase hspecial base hmem) h)
        · exact .inl (hauthority h)
      · exact .inl (hauthority h)
    next hspecial =>
      refine (read_general? hs (by simpa using hspecial) h).imp_right fun ⟨hparts, hbare⟩ =>
        ⟨hparts, ?_, hbare⟩
      rw [afterScheme?, if_neg hfile, if_neg hspecial, h]

/-- A character of a scheme stays plain in lower case. -/
theorem plain_toLower {c : Char}
    (h : (c.isAlphanum || c == '+' || c == '-' || c == '.') = true) :
    PlainChar c.toLower := by
  have hall : ∀ n : Fin 128, ((Char.ofNat n).isAlphanum || Char.ofNat n == '+' ||
      Char.ofNat n == '-' || Char.ofNat n == '.') = true →
      PlainChar (Char.ofNat n).toLower := by decide
  have hlow : c.toNat < 128 := by
    simp only [Bool.or_eq_true, beq_iff_eq] at h
    obtain ((h | rfl) | rfl) | rfl := h
    · have hrange := toNat_of_isAlphanum h
      omega
    all_goals decide
  have hc := hall ⟨c.toNat, hlow⟩
  simp only [Char.ofNat_toNat] at hc
  exact hc h

theorem plain_schemeTail? {tail rest : List Char} (h : schemeTail? cs = some (tail, rest)) :
    Plain (String.ofList tail) ∧ rest <:+ cs := by
  induction cs generalizing tail with
  | nil => cases h
  | cons c cs ih =>
    rw [schemeTail?.eq_def] at h
    split at h
    · cases h
    next hcs =>
      cases hcs
      cases h
      exact ⟨plain_empty, List.suffix_cons _ _⟩
    next hcs =>
      cases hcs
      split at h
      next hc =>
        obtain ⟨⟨tail', rest'⟩, htail, he⟩ := Option.map_eq_some_iff.mp h
        cases he
        obtain ⟨hplain, hsuffix⟩ := ih htail
        refine ⟨fun d hd => ?_, hsuffix.trans (List.suffix_cons _ _)⟩
        rw [String.toList_ofList, List.mem_cons] at hd
        rcases hd with rfl | hd
        · exact plain_toLower hc
        · exact hplain d (by rwa [String.toList_ofList])
      · cases h

/-- A scheme is not empty, and what is read after it is the end of the text. -/
theorem scheme?_eq_some {rest : List Char} (h : scheme? cs = some (scheme, rest)) :
    (scheme ≠ "" ∧ Plain scheme) ∧ rest <:+ cs := by
  rw [scheme?.eq_def] at h
  split at h
  next c cs =>
    split at h
    next hc =>
      obtain ⟨⟨tail, rest'⟩, htail, he⟩ := Option.map_eq_some_iff.mp h
      cases he
      obtain ⟨hplain, hsuffix⟩ := plain_schemeTail? htail
      refine ⟨⟨fun hempty => ?_, hplain⟩, hsuffix⟩
      obtain rfl : tail = [] := by simpa using congrArg String.toList hempty
      rw [schemeTail?.eq_def] at htail
      split at htail
      · cases htail
      next hcs =>
        cases hcs
        exact absurd hc (by decide)
      next hcs =>
        split at htail
        · obtain ⟨⟨tail', rest''⟩, -, he⟩ := Option.map_eq_some_iff.mp htail
          cases he
        · cases htail
    · cases h
  · cases h

/-- What is left of a text does not end in a space or control character. -/
theorem getLast?_clean {c : Char} (h : (clean cs).getLast? = some c) : 0x20 < c.toNat := by
  simp only [clean] at h
  have hlast : ∀ d, (dropEndWhile (fun c => decide (c.toNat ≤ 0x20))
      (cs.dropWhile fun c => decide (c.toNat ≤ 0x20))).getLast? = some d →
      decide (d.toNat ≤ 0x20) = false := fun _ => getLast?_dropEndWhile
  generalize dropEndWhile _ _ = trimmed at h hlast
  rcases List.eq_nil_or_concat trimmed with rfl | ⟨front, last, rfl⟩
  · cases h
  · rw [List.concat_eq_append] at h hlast
    have hvisible : 0x20 < last.toNat := by simpa using hlast _ List.getLast?_concat
    have hkept : ['\t', '\n', '\r'].contains last = false := by
      rw [List.contains_eq_mem, decide_eq_false_iff_not]
      simp only [List.mem_cons, List.not_mem_nil, or_false]
      rintro (rfl | rfl | rfl) <;> exact absurd hvisible (by decide)
    rw [List.filter_append, List.filter_singleton, hkept, Bool.not_false, cond_true,
      List.getLast?_concat] at h
    cases h
    exact hvisible

theorem clean_subset (cs : List Char) : clean cs ⊆ cs := by
  intro c hc
  have hfront := List.mem_of_mem_filter hc
  exact (List.dropWhile_suffix _).mem ((List.rdropWhile_prefix _ _).mem hfront)

/-- The parts of a URL are plain, absolute or read against another one. Without fragment it has a
hierarchy, or it is text that is read without the other one, too. -/
theorem read_read? {base : Option Uri} (hb : ∀ b ∈ base, PlainParts b) {reference : String}
    (h : read? base reference = some u) : PlainParts u ∧ ('#' ∉ clean reference.toList →
      WellRead (clean reference.toList) u ∨
        parse? reference = some u ∧ BareRead (clean reference.toList) u) := by
  have wellRead (hu : WellRead (clean reference.toList) u) : PlainParts u ∧
      ('#' ∉ clean reference.toList → WellRead (clean reference.toList) u ∨
        parse? reference = some u ∧ BareRead (clean reference.toList) u) :=
    ⟨hu.toPlainParts, fun _ => .inl hu⟩
  simp only [read?] at h
  split at h
  next scheme rest hscheme =>
    obtain ⟨hs, hrest⟩ := scheme?_eq_some hscheme
    rcases read_afterScheme? hb hs h with hu | ⟨hparts, halone, hbare⟩
    · exact wellRead (hu.of_suffix hrest)
    · refine ⟨hparts, fun hclean => .inr ⟨?_, ?_⟩⟩
      · simp only [parse?, read?, hscheme, halone]
      · exact (hbare fun hmark => hclean (hrest.mem hmark)).of_suffix hrest
  · split at h
    · cases h
    next base =>
      have hb := hb base rfl
      split at h
      next rest hpath hclean =>
        cases h
        rw [hclean]
        exact ⟨⟨hb.scheme, hb.hierarchy, hb.authority, hb.names, hb.query⟩,
          fun h => absurd List.mem_cons_self h⟩
      · cases h
      next names hpath =>
        have hb' : Base base := ⟨hb, names, hpath⟩
        split at h
        · refine wellRead (wellRead_file? (fun b hmem => ?_) h)
          obtain rfl := Option.mem_some.mp hmem
          exact hb'
        · exact wellRead (wellRead_relative? hb' h)

/-! ### Texts -/

theorem plain_markedPart {part : Option String} (h : ∀ text ∈ part, Plain text) :
    Plain (markedPart "?" part) := by
  cases part with
  | none => exact plain_empty
  | some text => exact Plain.append (by decide) (h text rfl)

/-- The text of a URL in front of its path. -/
def frontText (u : Uri) : String :=
  u.scheme ++ ":" ++ (u.authority.map Authority.text).getD "" ++ u.path.guard u.authority

theorem PlainParts.plain_frontText (h : PlainParts u) : Plain u.frontText := by
  have hauthority : Plain ((u.authority.map Authority.text).getD "") := by
    cases ha : u.authority with
    | none => exact plain_empty
    | some a => exact h.authority a ha
  have hguard : Plain (u.path.guard u.authority) := by
    rw [Path.guard.eq_def]
    split
    · split <;> decide
    · exact plain_empty
  exact ((h.scheme.2.append (by decide)).append hauthority).append hguard

theorem text_eq (hf : u.fragment = none) :
    u.text = u.frontText ++ u.path.text ++ markedPart "?" u.query := by
  rw [text, hf, markedPart, String.append_empty, frontText]

theorem WellRead.plain_text {cs : List Char} (h : WellRead cs u) (hcs : '#' ∉ cs) :
    Plain u.text := by
  obtain ⟨names, hp⟩ := h.segments
  rw [text_eq (h.fragment hcs)]
  refine (h.plain_frontText.append ?_).append (plain_markedPart h.query)
  rw [hp]
  refine plain_join fun s hs => ?_
  obtain ⟨name, hn, rfl⟩ := List.mem_map.mp hs
  refine Plain.append (by decide) (h.names name ?_)
  rwa [hp]

/-- The text of a URL without hierarchy neither begins nor ends with white space. -/
theorem BareRead.trim_text {cs : List Char} (h : BareRead cs u) (hparts : PlainParts u)
    (hcs : ∀ c ∈ cs.getLast?, 0x20 < c.toNat) : trim u.text = u.text ∧ '#' ∉ u.text.toList := by
  obtain ⟨bare, hp, hmark, hlast⟩ := h.bare
  have hfront := hparts.plain_frontText
  have hquery := plain_markedPart hparts.query
  have htext : u.text.toList = u.frontText.toList ++ bare.toList ++
      (markedPart "?" u.query).toList := by
    rw [text_eq h.fragment, String.toList_append, String.toList_append, hp, Path.text]
  refine ⟨trim_eq_self_of_ends (fun c hc => ?_) fun c hc => ?_, fun hc => ?_⟩
  · obtain ⟨first, rest, hscheme⟩ :=
      List.exists_cons_of_ne_nil fun hnil => hparts.scheme.1 (String.toList_eq_nil_iff.mp hnil)
    have hfirst : u.text.toList.head? = some first := by
      simp [text, hscheme]
    rw [hfirst] at hc
    obtain rfl := Option.mem_some.mp hc
    exact (hparts.scheme.2 first (hscheme ▸ List.mem_cons_self)).1
  · rw [htext, List.getLast?_append, List.getLast?_append] at hc
    rcases Option.or_eq_some_iff.mp hc with hc | ⟨hnone, hc⟩
    · exact (hquery c (List.mem_of_getLast? hc)).1
    rcases Option.or_eq_some_iff.mp hc with hc | ⟨-, hc⟩
    · refine hlast ?_ hcs c hc
      cases hq : u.query with
      | none => rfl
      | some query => simp [hq, markedPart] at hnone
    · exact (hfront c (List.mem_of_getLast? hc)).1
  · rw [htext, List.mem_append, List.mem_append] at hc
    rcases hc with (hc | hc) | hc
    · exact (hfront _ hc).2 rfl
    · exact hmark hc
    · exact (hquery _ hc).2 rfl

end OpenApi.Uri
