import OpenApi.Proofs.Parameter.Reading
import OpenApi.Proofs.Percent
import OpenApi.Proofs.Text

/-!
# Wire forms are read back

No delimiter of a style occurs in an escaped text, so a receiver finds the pieces again that were
joined.

* `Content.readContent?_join`, `Content.readPairs?_join`: the pieces of joined texts;
* `read?_layout`: what every layout is read as;
* `Encoding.read?_encode`: encoding loses nothing, for every list and object that is not empty.
-/

namespace OpenApi.Parameter

open Text

variable {sep : Char} {style : Style} {explode : Bool} {name : String} {content : Content}

/-! ## Escaped texts -/

/-- Characters that escaping leaves in no text. -/
def isDelimiter (c : Char) : Bool := !isUnreserved c && c != '%'

theorem notMem_escapeUnreserved (h : isDelimiter sep = true) (s : String) :
    sep ∉ (escapeUnreserved s).toList := by
  intro hmem
  rw [isDelimiter, Bool.and_eq_true, Bool.not_eq_true', bne_iff_ne] at h
  obtain hc | hc := mem_escapeUnreserved hmem
  · rw [h.1] at hc
    cases hc
  · exact h.2 hc

theorem readPiece_escapeUnreserved (s : String) :
    readPiece (escapeUnreserved s).toList = s := by
  rw [readPiece, String.ofList_toList, decode_escapeUnreserved]

/-- The pair of an escaped key and an escaped value. -/
def escapedPair (m : String × String) : String :=
  pair (escapeUnreserved m.1) (escapeUnreserved m.2)

theorem toList_escapedPair (m : String × String) :
    (escapedPair m).toList =
      (escapeUnreserved m.1).toList ++ '=' :: (escapeUnreserved m.2).toList := by
  rw [escapedPair, pair, String.toList_append, String.toList_append, List.append_assoc]
  rfl

theorem notMem_escapedPair (h : isDelimiter sep = true) (hne : sep ≠ '=') (m : String × String) :
    sep ∉ (escapedPair m).toList := by
  rw [toList_escapedPair, List.mem_append, List.mem_cons]
  rintro (hc | hc | hc)
  · exact notMem_escapeUnreserved h m.1 hc
  · exact hne hc
  · exact notMem_escapeUnreserved h m.2 hc

theorem readPair?_escapedPair (m : String × String) :
    readPair? (escapedPair m).toList = some m := by
  rw [readPair?, toList_escapedPair, cut?_append (notMem_escapeUnreserved (by decide) m.1),
    Option.map_some, readPiece_escapeUnreserved, readPiece_escapeUnreserved]

/-- A key in brackets after a name, with its value. -/
def escapedMember (name : String) (m : String × String) : String :=
  pair (escapeUnreserved name ++ "[" ++ escapeUnreserved m.1 ++ "]") (escapeUnreserved m.2)

theorem toList_escapedMember (name : String) (m : String × String) :
    (escapedMember name m).toList =
      (escapeUnreserved name).toList ++ '[' ::
        ((escapeUnreserved m.1).toList ++ ']' :: '=' :: (escapeUnreserved m.2).toList) := by
  simp only [escapedMember, pair, String.toList_append, List.append_assoc]
  rfl

theorem notMem_escapedMember (name : String) (m : String × String) :
    '&' ∉ (escapedMember name m).toList := by
  have hesc := notMem_escapeUnreserved (show isDelimiter '&' = true by decide)
  simp [toList_escapedMember, hesc]

theorem readBracketed?_escapedMember (name : String) (m : String × String) :
    readBracketed? (escapedMember name m).toList = some (name, m) := by
  have hopen := notMem_escapeUnreserved (show isDelimiter '[' = true by decide) name
  have hclose := notMem_escapeUnreserved (show isDelimiter ']' = true by decide) m.1
  rw [readBracketed?, toList_escapedMember, cut?_append hopen]
  simp only [Option.bind_eq_bind, Option.bind_some, cut?_append hclose, dropPrefix?, if_true,
    readPiece_escapeUnreserved]
  rfl

/-! ## Joined pieces -/

theorem splitOn_toList_intercalate {delimiter : String} {parts : List String}
    (hd : delimiter.toList = [sep]) (hne : parts ≠ []) (h : ∀ part ∈ parts, sep ∉ part.toList) :
    splitOn sep (delimiter.intercalate parts).toList = parts.map String.toList := by
  rw [String.toList_intercalate, hd, splitOn_intercalate]
  · simpa using hne
  · intro cs hcs
    obtain ⟨part, hpart, rfl⟩ := List.mem_map.mp hcs
    exact h part hpart

theorem mapM_map_eq_some {α β γ : Type} {f : α → β} {read : β → Option γ} {result : α → γ}
    (h : ∀ x, read (f x) = some (result x)) (l : List α) :
    (l.map f).mapM read = some (l.map result) := by
  induction l with
  | nil => rfl
  | cons x l ih =>
    rw [List.map_cons, List.mapM_cons, h, ih]
    rfl

namespace Content

theorem strings_ne_nil (h : content.isEmpty = false) : content.strings ≠ [] := by
  cases content with
  | list items => simpa [isEmpty, strings] using h
  | object members =>
    cases members with
    | nil => cases h
    | cons m members => simp [strings]

theorem pairs_ne_nil (h : content.isEmpty = false) : content.pairs name ≠ [] := by
  cases content with
  | list items => simpa [isEmpty, pairs] using h
  | object members => simpa [isEmpty, pairs] using h

theorem inTurn?_strings (members : List (String × String)) :
    inTurn? (members.flatMap fun m => [m.1, m.2]) = some members := by
  induction members with
  | nil => rfl
  | cons m members ih =>
    rw [List.flatMap_cons, List.cons_append, List.cons_append, List.nil_append, inTurn?, ih]
    rfl

theorem ofStrings?_strings (content : Content) :
    ofStrings? content.shape content.strings = some content := by
  cases content with
  | list items => rfl
  | object members => rw [shape, strings, ofStrings?, inTurn?_strings]; rfl

theorem agreed?_of_forall {names : List String} (hne : names ≠ []) (h : ∀ n ∈ names, n = name) :
    agreed? names = some name := by
  cases names with
  | nil => exact absurd rfl hne
  | cons n names =>
    obtain rfl := h n List.mem_cons_self
    have hall : names.all (· == n) = true := by
      rw [List.all_eq_true]
      exact fun m hm => beq_iff_eq.mpr (h m (List.mem_cons_of_mem _ hm))
    rw [agreed?, hall, if_pos rfl]

theorem ofPairs?_pairs (h : content.isEmpty = false) :
    Reading.ofPairs? content.shape (content.pairs name) =
      some { name := if content.shape = .object then none else some name, content } := by
  cases content with
  | list items =>
    have hnames : agreed? ((items.map fun item => (name, item)).map Prod.fst) = some name := by
      refine agreed?_of_forall ?_ (by simp)
      simpa [isEmpty] using h
    rw [shape, pairs, Reading.ofPairs?, hnames]
    simp [Function.comp_def]
  | object members => rfl

/-- Items, or keys and values in turn, are found again between the delimiters. -/
theorem readContent?_join {delimiter : String} (hd : delimiter.toList = [sep])
    (hsep : isDelimiter sep = true) (h : content.isEmpty = false) :
    readContent? content.shape sep
      (delimiter.intercalate (content.strings.map escapeUnreserved)).toList = some content := by
  have hne : content.strings.map escapeUnreserved ≠ [] := by
    simpa using strings_ne_nil h
  have hpieces : ((content.strings.map escapeUnreserved).map String.toList).map readPiece =
      content.strings := by
    simp [Function.comp_def, readPiece_escapeUnreserved]
  rw [readContent?, splitOn_toList_intercalate hd hne, hpieces, ofStrings?_strings]
  intro part hpart
  obtain ⟨s, -, rfl⟩ := List.mem_map.mp hpart
  exact notMem_escapeUnreserved hsep s

/-- So are they after the name. -/
theorem readNamed?_join {delimiter : String} (hd : delimiter.toList = [sep])
    (hsep : isDelimiter sep = true) (h : content.isEmpty = false) (name : String) :
    readNamed? content.shape sep (pair (escapeUnreserved name)
      (delimiter.intercalate (content.strings.map escapeUnreserved))).toList =
        some { name := some name, content } := by
  have hname := notMem_escapeUnreserved (show isDelimiter '=' = true by decide) name
  have hpair : ∀ body : String, (pair (escapeUnreserved name) body).toList =
      (escapeUnreserved name).toList ++ '=' :: body.toList := by
    intro body
    rw [pair, String.toList_append, String.toList_append, List.append_assoc]
    rfl
  rw [readNamed?, hpair, cut?_append hname]
  simp only [Option.bind_eq_bind, Option.bind_some, readContent?_join hd hsep h,
    readPiece_escapeUnreserved]
  rfl

/-- Items with the name and members are found again as pairs. -/
theorem readPairs?_join {delimiter : String} (hd : delimiter.toList = [sep])
    (hsep : isDelimiter sep = true) (hne : sep ≠ '=') (h : content.isEmpty = false)
    (name : String) :
    readPairs? content.shape sep
      (delimiter.intercalate ((content.pairs name).map escapedPair)).toList =
        some { name := if content.shape = .object then none else some name, content } := by
  have hparts : (content.pairs name).map escapedPair ≠ [] := by
    simpa using pairs_ne_nil h
  have hread : (((content.pairs name).map escapedPair).map String.toList).mapM readPair? =
      some (content.pairs name) := by
    rw [List.map_map]
    exact (mapM_map_eq_some readPair?_escapedPair _).trans (congrArg some (List.map_id' _))
  rw [readPairs?, splitOn_toList_intercalate hd hparts, hread]
  · exact ofPairs?_pairs h
  · intro part hpart
    obtain ⟨m, -, rfl⟩ := List.mem_map.mp hpart
    exact notMem_escapedPair hsep hne m

/-- Members in brackets are found again with the name. -/
theorem readDeepObject?_join {members : List (String × String)} (hne : members ≠ [])
    (name : String) : readDeepObject? ("&".intercalate (members.map (escapedMember name))).toList =
      some { name := some name, content := .object members } := by
  have hparts : members.map (escapedMember name) ≠ [] := by
    simpa using hne
  have hread : ((members.map (escapedMember name)).map String.toList).mapM readBracketed? =
      some (members.map fun m => (name, m)) := by
    rw [List.map_map]
    exact mapM_map_eq_some (readBracketed?_escapedMember name) members
  have hname : agreed? ((members.map fun m => (name, m)).map Prod.fst) = some name :=
    agreed?_of_forall (by simpa using hne) (by simp +contextual)
  have hamp : ∀ part ∈ members.map (escapedMember name), '&' ∉ part.toList := by
    intro part hpart
    obtain ⟨m, -, rfl⟩ := List.mem_map.mp hpart
    exact notMem_escapedMember name m
  rw [readDeepObject?, splitOn_toList_intercalate rfl hparts hamp, hread]
  simp only [Option.bind_eq_bind, Option.bind_some, hname]
  simp [Function.comp_def]

/-! ## Layouts -/

/-- The escaped members of the content. -/
def parts : Content → Parts
  | .list items => .array (items.map escapeUnreserved)
  | .object members =>
    .object (members.map fun m => (escapeUnreserved m.1, escapeUnreserved m.2))

theorem flat_parts (content : Content) :
    content.parts.flat = content.strings.map escapeUnreserved := by
  cases content with
  | list items => rfl
  | object members => simp [parts, Parts.flat, strings, List.flatMap_map, List.map_flatMap]

theorem isEmpty_parts (content : Content) : content.parts.isEmpty = content.isEmpty := by
  cases content <;> simp [parts, Parts.isEmpty, isEmpty]

theorem pairs_escaped (members : List (String × String)) :
    Parameter.pairs (members.map fun m => (escapeUnreserved m.1, escapeUnreserved m.2)) =
      members.map escapedPair := by
  rw [Parameter.pairs, List.map_map]
  rfl

theorem formText_parts (h : content.isEmpty = false) (name : String) :
    formText (escapeUnreserved name) explode content.parts =
      if explode then "&".intercalate ((content.pairs name).map escapedPair)
      else pair (escapeUnreserved name)
        (",".intercalate (content.strings.map escapeUnreserved)) := by
  unfold formText
  rw [isEmpty_parts, h, if_neg Bool.false_ne_true, ← flat_parts]
  cases content <;> cases explode <;>
    simp [parts, Content.pairs, pairs_escaped, escapedPair, Function.comp_def]

theorem matrixText_parts (h : content.isEmpty = false) (name : String) (explode : Bool) :
    (matrixText (escapeUnreserved name) explode content.parts).toList =
      ';' :: (if explode then ";".intercalate ((content.pairs name).map escapedPair)
        else pair (escapeUnreserved name)
          (",".intercalate (content.strings.map escapeUnreserved))).toList := by
  have hne : (content.pairs name).map escapedPair ≠ [] := by
    simpa using pairs_ne_nil h
  unfold matrixText
  rw [isEmpty_parts, h, if_neg Bool.false_ne_true, ← flat_parts]
  cases explode with
  | false =>
    cases content <;> rw [String.toList_append] <;> rfl
  | true =>
    rw [if_pos rfl, ← toList_join_prefixed rfl hne]
    cases content <;>
      simp [parts, Content.pairs, pairs_escaped, escapedPair, Function.comp_def]

theorem simpleText_parts (content : Content) :
    simpleText explode content.parts =
      if explode = true ∧ content.shape = .object then
        ",".intercalate ((content.pairs "").map escapedPair)
      else ",".intercalate (content.strings.map escapeUnreserved) := by
  unfold simpleText
  rw [← flat_parts]
  cases content <;> cases explode <;>
    simp [parts, shape, Content.pairs, pairs_escaped]

/-! ## Styles -/

theorem read?_simple (h : content.isEmpty = false) :
    read? .simple explode content.shape (simpleText explode content.parts) =
      some { name := none, content } := by
  rw [simpleText_parts]
  split
  next hc =>
    obtain ⟨rfl, hshape⟩ := hc
    have hread := readPairs?_join (show ",".toList = [','] from rfl) (by decide) (by decide) h ""
    rw [if_pos hshape, hshape] at hread
    rw [hshape]
    exact hread
  next hc =>
    have hread := readContent?_join (show ",".toList = [','] from rfl) (by decide) h
    have hstyle : ∀ text, read? .simple explode content.shape text =
        (readContent? content.shape ',' text.toList).map fun content =>
          { name := none, content } := by
      intro text
      cases content <;> cases explode <;> first | rfl | exact absurd ⟨rfl, rfl⟩ hc
    rw [hstyle, hread, Option.map_some]

/-- The name is given with pairs and not with members. -/
theorem carriesName_pairs (hstyle : style = .matrix ∨ style = .form) :
    (if carriesName style true content.shape then some name else none) =
      if content.shape = .object then none else some name := by
  obtain rfl | rfl := hstyle <;> cases content <;> rfl

theorem read?_matrix (h : content.isEmpty = false) (name : String) :
    read? .matrix explode content.shape
        (matrixText (escapeUnreserved name) explode content.parts) =
      some { name := if carriesName .matrix explode content.shape then some name else none,
             content } := by
  have htext := matrixText_parts h name explode
  cases explode with
  | true =>
    rw [if_pos rfl] at htext
    rw [carriesName_pairs (.inl rfl)]
    show (dropPrefix? [';'] _).bind _ = _
    rw [htext, dropPrefix?, if_pos rfl, dropPrefix?, Option.bind_some]
    exact readPairs?_join (show ";".toList = [';'] from rfl) (by decide) (by decide) h name
  | false =>
    rw [if_neg Bool.false_ne_true] at htext
    show (dropPrefix? [';'] _).bind _ = _
    rw [htext, dropPrefix?, if_pos rfl, dropPrefix?, Option.bind_some]
    exact readNamed?_join (show ",".toList = [','] from rfl) (by decide) h name

theorem read?_form (h : content.isEmpty = false) (name : String) :
    read? .form explode content.shape (formText (escapeUnreserved name) explode content.parts) =
      some { name := if carriesName .form explode content.shape then some name else none,
             content } := by
  rw [formText_parts h]
  cases explode with
  | true =>
    rw [if_pos rfl, carriesName_pairs (.inr rfl)]
    exact readPairs?_join (show "&".toList = ['&'] from rfl) (by decide) (by decide) h name
  | false =>
    rw [if_neg Bool.false_ne_true]
    exact readNamed?_join (show ",".toList = [','] from rfl) (by decide) h name

theorem read?_pipeDelimited (h : content.isEmpty = false) (name : String) :
    read? .pipeDelimited explode content.shape
        (delimitedText (escapeUnreserved name) "|" content.parts) =
      some { name := some name, content } := by
  rw [delimitedText, flat_parts]
  exact readNamed?_join (show "|".toList = ['|'] from rfl) (by decide) h name

theorem read?_deepObject {members : List (String × String)} (hne : members ≠ []) (name : String) :
    read? .deepObject explode .object
        (deepObjectText (escapeUnreserved name) (object members).parts) =
      some { name := some name, content := object members } := by
  have htext : deepObjectText (escapeUnreserved name) (object members).parts =
      "&".intercalate (members.map (escapedMember name)) := by
    rw [parts, deepObjectText, List.map_map]
    rfl
  rw [htext]
  exact readDeepObject?_join hne name

/-- Content that a style can be read back from: not empty, and an object for `deepObject`. -/
structure Fits (style : Style) (content : Content) : Prop where
  notEmpty : content.isEmpty = false
  object : style = .deepObject → content.shape = .object

end Content

/-- The styles whose delimiters are all escaped. -/
def readableStyles : List Style := [.simple, .matrix, .form, .pipeDelimited, .deepObject]

/-- Every layout is read as what was laid out. -/
theorem read?_layout (hstyle : style ∈ readableStyles) (h : content.Fits style) (name : String) :
    read? style explode content.shape
        (layout style explode (escapeUnreserved name) content.parts) =
      some { name := if carriesName style explode content.shape then some name else none,
             content } := by
  have hne := h.notEmpty
  cases style with
  | simple => exact Content.read?_simple hne
  | matrix => exact Content.read?_matrix hne name
  | form => exact Content.read?_form hne name
  | pipeDelimited => exact Content.read?_pipeDelimited hne name
  | deepObject =>
    cases content with
    | list items => cases h.object rfl
    | object members => exact Content.read?_deepObject (by simpa [Content.isEmpty] using hne) name
  | label | spaceDelimited | cookie => simp [readableStyles] at hstyle

/-! ## Encoding -/

/-- The members collected from content are its escaped ones. -/
theorem collect_value (content : Content) :
    Parts.collect escapeUnreserved content.shape content.value = .ok content.parts := by
  cases content <;>
    simp [Parts.collect, Content.shape, Content.value, Content.parts, memberText,
      Function.comp_def]

/-- Settings that pass their check encode all content that fits their style. -/
theorem Encoding.encode_value {e : Encoding} (hcheck : e.check = .ok ())
    (hreserved : e.allowReserved = false) (hlocation : e.location ∈ [.path, .query, .cookie])
    (hstyle : e.resolvedStyle ∈ readableStyles) (h : content.Fits e.resolvedStyle) (name : String) :
    e.encode content.shape name content.value = .ok {
      location := e.location
      text := layout e.resolvedStyle e.resolvedExplode (escapeUnreserved name) content.parts } := by
  have hquery : e.location ≠ .querystring := by
    rintro hq
    simp [hq] at hlocation
  have hheader : e.location ≠ .header := by
    rintro hh
    simp [hh] at hlocation
  have hcookie : e.resolvedStyle ≠ .cookie := by
    intro hc
    simp [hc, readableStyles] at hstyle
  have hescaping : Escaping.of e.location e.resolvedStyle e.allowReserved = .allButUnreserved := by
    simp [Escaping.of, hheader, hcookie, hreserved]
  have hobject : ¬(e.resolvedStyle = .deepObject ∧ content.shape ≠ .object) :=
    fun hd => hd.2 (h.object hd.1)
  have htext : e.textOf content.shape name content.value =
      .ok (layout e.resolvedStyle e.resolvedExplode (escapeUnreserved name) content.parts) := by
    rw [textOf, hcheck, hescaping]
    simp only [bind, Except.bind, if_neg hquery, if_neg hobject, Escaping.apply, collect_value]
    rfl
  rw [encode, htext]

/-- Encoding loses nothing. Under settings that pass their check, escape reserved characters and
have a style whose delimiters are escaped, every list and every object of strings that is not empty
is encoded, and the text is read as the same content with the same name, where it carries one. Two
different lists, or two different objects, never share a text. -/
theorem Encoding.read?_encode (e : Encoding) (name : String) (hcheck : e.check = .ok ())
    (hreserved : e.allowReserved = false) (hlocation : e.location ∈ [.path, .query, .cookie])
    (hstyle : e.resolvedStyle ∈ readableStyles) :
    (∀ content : Content, content.Fits e.resolvedStyle →
      ∃ text, e.encode content.shape name content.value = .ok { location := e.location, text } ∧
        read? e.resolvedStyle e.resolvedExplode content.shape text = some {
          name := if carriesName e.resolvedStyle e.resolvedExplode content.shape then some name
            else none
          content }) ∧
    ∀ content content' : Content, content.Fits e.resolvedStyle → content'.Fits e.resolvedStyle →
      content.shape = content'.shape →
      e.encode content.shape name content.value = e.encode content'.shape name content'.value →
      content = content' := by
  have roundtrip : ∀ content : Content, content.Fits e.resolvedStyle →
      ∃ text, e.encode content.shape name content.value = .ok { location := e.location, text } ∧
        read? e.resolvedStyle e.resolvedExplode content.shape text = some {
          name := if carriesName e.resolvedStyle e.resolvedExplode content.shape then some name
            else none
          content } := fun content h =>
    ⟨_, encode_value hcheck hreserved hlocation hstyle h name, read?_layout hstyle h name⟩
  refine ⟨roundtrip, fun content content' h h' hshape hsame => ?_⟩
  obtain ⟨text, hencode, hread⟩ := roundtrip content h
  obtain ⟨text', hencode', hread'⟩ := roundtrip content' h'
  rw [hencode, hencode'] at hsame
  have htext : text = text' := by
    cases hsame
    rfl
  rw [htext, hshape, hread'] at hread
  exact congrArg Reading.content (Option.some.inj hread).symm

/-- Delimiters, a percent sign, a character outside ASCII and an empty string in a list. -/
theorem Encoding.read?_encode_delimiters :
    let e : Encoding := { location := .query, style := some .form, explode := some false }
    let content : Content := .list ["a,b", "", "%é"]
    e.encode .array "n&" content.value =
        .ok { location := .query, text := "n%26=a%2Cb,,%25%C3%A9" } ∧
      read? .form false .array "n%26=a%2Cb,,%25%C3%A9" = some { name := some "n&", content } := by
  intro e content
  have hcontent : content.Fits .form := ⟨rfl, by decide⟩
  obtain ⟨text, hencode, hread⟩ := (Encoding.read?_encode e "n&" rfl rfl (by decide)
    (by decide)).1 content hcontent
  have hwire : (e.encode .array "n&" content.value).toOption =
      some { location := .query, text := "n%26=a%2Cb,,%25%C3%A9" } := by
    decide +kernel
  have htext : text = "n%26=a%2Cb,,%25%C3%A9" := by
    rw [show e.encode .array "n&" content.value = _ from hencode] at hwire
    exact congrArg WireForm.text (Option.some.inj hwire)
  rw [htext] at hencode hread
  exact ⟨hencode, hread⟩

end OpenApi.Parameter
