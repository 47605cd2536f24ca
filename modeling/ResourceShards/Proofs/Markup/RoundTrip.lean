import ResourceShards.Proofs.Markup.Fidelity

/-!
# ResourceShards.Proofs.Markup.RoundTrip

**Decoding undoes encoding.** Tokens are faithful if their tags are nested, every name has a
namespace for which a prefix is in scope, and nothing in them could be taken for something else once
it is written. A new encoder writes all of them, and strict decoding of what it wrote gives them
back, however the declarations of prefixes shadow each other.

* `Declares`, `Faithful`: the tokens in question
-/

namespace ResourceShards.Markup

open ResourceShards.Utf8

/-! ### Faithful tokens -/

/-- A prefix and a URI that a tag may declare. The URI is written as it is, and it is not that of
`xml` or `xmlns` nor the word by which names of declarations are known. Only the default namespace
is undeclared, and `xml` and `xmlns` are not declared. -/
structure Declares (label uri : String) : Prop where
  /-- Prefixes other than the empty one are bound to something. -/
  label : label = "" ∨ (uri ≠ "" ∧ label ≠ "xml" ∧ label ≠ Name.xmlns)
  /-- No character of the URI is escaped. -/
  clean : ∀ c ∈ uri.toList, isEscaped c = false
  /-- The URI is not reserved. -/
  free : uri ≠ Name.xmlns ∧ uri ≠ Name.xmlSpace ∧ uri ≠ Scope.xmlnsUri

instance (label uri : String) : Decidable (Declares label uri) :=
  have : Decidable (∀ c ∈ uri.toList, isEscaped c = false) := List.decidableBAll _ _
  decidable_of_iff (_ ∧ _ ∧ _)
    ⟨fun ⟨label, clean, free⟩ => ⟨label, clean, free⟩, fun h => ⟨h.label, h.clean, h.free⟩⟩

namespace Scope

/-- Namespaces of elements: none where there is no default namespace, those that a prefix is bound
to, and that of `xml`. -/
def NamesElement (scope : Scope) (space : String) : Prop :=
  (space = "" ∧ (scope.uri? "").getD "" = "") ∨
    (space ≠ "" ∧ ∃ entry ∈ scope, scope.uri? entry.1 = some space) ∨ space = Name.xmlSpace

instance (scope : Scope) (space : String) : Decidable (scope.NamesElement space) :=
  inferInstanceAs (Decidable (_ ∨ _ ∨ _))

/-- Namespaces of attributes: none, those that a prefix other than the empty one is bound to, and
that of `xml`. -/
def NamesAttribute (scope : Scope) (space : String) : Prop :=
  space = "" ∨ (∃ entry ∈ scope, entry.1 ≠ "" ∧ scope.uri? entry.1 = some space) ∨
    space = Name.xmlSpace

instance (scope : Scope) (space : String) : Decidable (scope.NamesAttribute space) :=
  inferInstanceAs (Decidable (_ ∨ _ ∨ _))

end Scope

/-- A start tag that may stand where the prefixes of `scope` are declared, its own included. -/
structure StartTag.Fits (scope : Scope) (tag : StartTag) : Prop where
  /-- The local part of its name is a word. -/
  word : IsWord tag.name.localPart
  /-- Its namespace can be written. -/
  element : scope.NamesElement tag.name.space
  /-- The local parts of its attributes are words. -/
  words : ∀ a ∈ tag.attributes, IsWord a.name.localPart
  /-- The namespaces of its attributes can be written, if they do not declare a prefix. -/
  attributes : ∀ a ∈ tag.attributes, a.name.declaredLabel? = none →
    scope.NamesAttribute a.name.space
  /-- Its declarations are sensible. -/
  declarations : ∀ entry ∈ tag.declared, Declares entry.1 entry.2

instance (scope : Scope) (tag : StartTag) : Decidable (tag.Fits scope) :=
  decidable_of_iff (_ ∧ _ ∧ _ ∧ _ ∧ _)
    ⟨fun ⟨word, element, words, attributes, declarations⟩ =>
        ⟨word, element, words, attributes, declarations⟩,
      fun h => ⟨h.word, h.element, h.words, h.attributes, h.declarations⟩⟩

/-- Tokens whose tags are nested inside the open elements, and all fit where they stand. -/
inductive Nested : List Frame → List Token → Prop
  | nil : Nested [] []
  | start {frames : List Frame} {tag : StartTag} {rest : List Token} :
      tag.Fits (Writing.scopeOf [] (⟨tag.name, tag.declared⟩ :: frames)) →
      Nested (⟨tag.name, tag.declared⟩ :: frames) rest → Nested frames (.start tag :: rest)
  | finish {frame : Frame} {frames : List Frame} {rest : List Token} :
      Nested frames rest → Nested (frame :: frames) (.finish frame.name :: rest)
  | content {frames : List Frame} {t : Token} {rest : List Token} :
      t.names = [] → t.Enclosed → Nested frames rest → Nested frames (t :: rest)

/-- Tokens that survive being written and read. -/
structure Faithful (tokens : List Token) : Prop where
  /-- Their tags are nested and fit. -/
  nested : Nested [] tokens
  /-- No text stands next to another one. -/
  apart : TextsApart tokens
  /-- They do not begin with what would be taken for a byte order mark. -/
  front : ∀ content rest, tokens = .text content :: rest →
    content.toList.head? ≠ some (Char.ofNat 0xfeff)

/-! ### Names -/

namespace Scope

/-- All declarations of a scope are sensible, and their prefixes are words or empty. -/
def Regular (scope : Scope) : Prop :=
  scope.Plain ∧ ∀ entry ∈ scope, Declares entry.1 entry.2

theorem Regular.of_uri? {scope : Scope} (h : scope.Regular) {label uri : String}
    (huri : scope.uri? label = some uri) : Declares label uri :=
  h.2 (label, uri) (mem_of_uri? huri)

/-- `asWritten` changes nothing about a `Regular` scope. -/
theorem Regular.asWritten {scope : Scope} (h : scope.Regular) : scope.asWritten = scope := by
  have hself : ∀ entry ∈ scope, (entry.1, escapeValue entry.2) = entry := by
    intro entry hentry
    rw [escapeValue_eq_self (h.2 entry hentry).clean]
  unfold Scope.asWritten
  rw [List.map_congr_left hself, List.map_id']

/-- In a `Regular` scope, the `space` of the prefix that is `visible?` for a URI is the URI. -/
theorem Regular.space_of_visible? {scope : Scope} (h : scope.Regular) {forAttribute : Bool}
    {uri label : String} (huri : uri ≠ "")
    (hvisible : scope.visible? forAttribute uri = some label) :
    scope.space forAttribute label = uri := by
  obtain ⟨hbound, hattr⟩ := uri?_of_visible? hvisible
  unfold Scope.space
  by_cases hempty : label = ""
  · have hno : forAttribute = false := by
      rw [← Bool.not_eq_true]
      exact fun htrue => hattr ⟨htrue, hempty⟩
    subst hempty
    rw [if_pos rfl, hno, hbound]
    rfl
  · obtain ⟨-, hxml, hxmlns⟩ := (h.of_uri? hbound).label.resolve_left hempty
    rw [if_neg hempty, if_neg hxmlns, if_neg hxml, hbound]
    exact if_neg huri

/-- A `Regular` scope `Keeps` a name whose namespace some prefix is bound to. -/
theorem Regular.keeps_of_uri? {scope : Scope} (h : scope.Regular) {forAttribute : Bool}
    {name : Name} {label : String} (hlabel : forAttribute = true → label ≠ "")
    (hspace : name.space ≠ "") (hbound : scope.uri? label = some name.space) :
    scope.Keeps scope forAttribute name := by
  obtain ⟨found, hvisible⟩ := visible?_of_uri? hbound hlabel
  have hxmlns : name.space ≠ Name.xmlns := (h.of_uri? hbound).free.1
  have hfound : scope.label? forAttribute name.space = some found := by
    unfold Scope.label?
    rw [if_neg (by rw [beq_iff_eq]; exact hspace), if_neg (by rw [beq_iff_eq]; exact hxmlns),
      hvisible]
  rw [Keeps, spell?, hfound, Option.map_some, Option.map_some, resolve,
    h.space_of_visible? hspace hvisible]

/-- A name in the namespace of `xml` survives. -/
theorem Regular.keeps_xml {scope : Scope} (h : scope.Regular) {forAttribute : Bool} {name : Name}
    (hspace : name.space = Name.xmlSpace) : scope.Keeps scope forAttribute name := by
  have hvisible : scope.visible? forAttribute Name.xmlSpace = none := by
    cases hsome : scope.visible? forAttribute Name.xmlSpace with
    | none => rfl
    | some label =>
        obtain ⟨hbound, -⟩ := uri?_of_visible? hsome
        exact absurd rfl (h.of_uri? hbound).free.2.1
  have hlabel : ¬(scope.uri? Name.xmlSpace).isSome = true := by
    rw [Option.isSome_iff_exists]
    rintro ⟨uri, huri⟩
    rcases h.1.of_uri? huri with hempty | ⟨hword, -⟩
    · exact absurd hempty (by decide)
    · exact absurd hword (by decide)
  have hfound : scope.label? forAttribute name.space = some "xml" := by
    unfold Scope.label?
    rw [hspace, if_neg (by decide), if_neg (by decide), hvisible]
    simp only
    rw [if_neg hlabel, if_pos (by decide)]
  have hread : scope.space forAttribute "xml" = name.space := by
    unfold Scope.space
    rw [if_neg (by decide), if_neg (by decide), if_pos rfl, hspace]
  rw [Keeps, spell?, hfound, Option.map_some, Option.map_some, resolve, hread]

theorem Regular.keeps_element {scope : Scope} (h : scope.Regular) {name : Name}
    (hname : scope.NamesElement name.space) : scope.Keeps scope false name := by
  rcases hname with ⟨hempty, hdefault⟩ | ⟨hne, entry, -, hbound⟩ | hxml
  · have hlabel : scope.label? false name.space = some "" := by
      unfold Scope.label?
      rw [if_pos (beq_iff_eq.2 hempty)]
    rw [Keeps, spell?, hlabel, Option.map_some, Option.map_some, resolve, space, if_pos rfl,
      hdefault]
    cases name
    simp only at hempty
    rw [hempty]
    rfl
  · exact h.keeps_of_uri? (fun htrue => Bool.noConfusion htrue) hne hbound
  · exact h.keeps_xml hxml

theorem Regular.keeps_attribute {scope : Scope} (h : scope.Regular) {name : Name}
    (hname : name.declaredLabel? = none → scope.NamesAttribute name.space) :
    scope.Keeps scope true name := by
  have hself : ∀ label, scope.label? true name.space = some label →
      scope.space true label = name.space → scope.Keeps scope true name := by
    intro label hlabel hspace
    rw [Keeps, spell?, hlabel, Option.map_some, Option.map_some, resolve, hspace]
  by_cases hempty : name.space = ""
  · refine hself "" ?_ (by rw [hempty]; rfl)
    unfold Scope.label?
    rw [if_pos (beq_iff_eq.2 hempty)]
  by_cases hxmlns : name.space = Name.xmlns
  · refine hself Name.xmlns ?_ (by rw [hxmlns]; rfl)
    unfold Scope.label?
    rw [if_neg (by rw [beq_iff_eq]; exact hempty), if_pos (beq_iff_eq.2 hxmlns)]
  have hplain : name.declaredLabel? = none := by
    simp [Name.declaredLabel?, hempty, hxmlns]
  rcases hname hplain with hno | ⟨entry, -, hlabel, hbound⟩ | hxml
  · exact absurd hno hempty
  · exact h.keeps_of_uri? (fun _ => hlabel) hempty hbound
  · exact h.keeps_xml hxml

end Scope

/-! ### Tokens -/

namespace StartTag.Fits

theorem tidy {scope : Scope} {tag : StartTag} (h : tag.Fits scope) : (Token.start tag).Tidy := by
  refine ⟨fun n hn => ?_, trivial, fun tag' htag' entry hentry => ?_⟩
  · rcases List.mem_cons.1 hn with rfl | hn
    · exact h.word
    · obtain ⟨a, ha, rfl⟩ := List.mem_map.1 hn
      exact h.words a ha
  · obtain rfl : tag = tag' := Token.start.inj htag'
    have hdeclares := h.declarations entry hentry
    rw [escapeValue_eq_self hdeclares.clean]
    rcases hdeclares.label with hempty | ⟨-, hxml, hxmlns⟩
    · exact .inl hempty
    · exact .inr (.inr ⟨hxml, hxmlns, hdeclares.free.2⟩)

/-- The declarations of a tag that `Fits` are `Regular`. -/
theorem regular {scope : Scope} {tag : StartTag} (h : tag.Fits scope) : tag.declared.Regular :=
  ⟨h.tidy.plain_declared, h.declarations⟩

theorem keepsTag {scope : Scope} {tag : StartTag} (h : tag.Fits scope) (hscope : scope.Regular) :
    scope.KeepsTag scope tag :=
  ⟨hscope.keeps_element h.element, fun a ha => hscope.keeps_attribute (h.attributes a ha)⟩

end StartTag.Fits

/-- Every open element was opened by a tag that fits where it stands. -/
def OpenFits : List Frame → Prop
  | [] => True
  | frame :: outer =>
    (∃ tag : StartTag, frame = ⟨tag.name, tag.declared⟩ ∧
      tag.Fits (Writing.scopeOf [] (frame :: outer))) ∧ OpenFits outer

/-- Inside frames of `OpenFits` the scope is sensible, and reading makes the same of it. -/
theorem OpenFits.scopeOf {frames : List Frame} (h : OpenFits frames) :
    Scope.Regular (Writing.scopeOf [] frames) ∧
      Writing.readIn [] frames = Writing.scopeOf [] frames := by
  induction frames with
  | nil =>
      refine ⟨⟨fun entry hentry => ?_, fun entry hentry => ?_⟩, rfl⟩
      · exact absurd hentry List.not_mem_nil
      · exact absurd hentry List.not_mem_nil
  | cons frame outer ih =>
      obtain ⟨⟨tag, rfl, hfits⟩, houter⟩ := h
      obtain ⟨hregular, hread⟩ := ih houter
      have htag : tag.declared.Regular := hfits.regular
      refine ⟨⟨htag.1.append hregular.1, fun entry hentry => ?_⟩, ?_⟩
      · rcases List.mem_append.1 hentry with hin | hout
        · exact htag.2 entry hin
        · exact hregular.2 entry hout
      · rw [Writing.readIn, Writing.scopeOf, htag.asWritten, hread]

/-- Tokens that are `Nested` are all `Tidy`, their names are kept, and they can be spelled until all
elements are closed. -/
theorem Nested.spellAll {frames : List Frame} {tokens : List Token} (h : Nested frames tokens)
    (hframes : OpenFits frames) :
    (∀ t ∈ tokens, t.Tidy) ∧ (Writing.mk [] frames).Keeps [] tokens ∧
      ∃ spelled, (Writing.mk [] frames).spellAll tokens = some (spelled, ⟨[], []⟩) := by
  induction h with
  | nil => exact ⟨fun t ht => absurd ht List.not_mem_nil, trivial, [], rfl⟩
  | @start frames tag rest hfits hrest ih =>
      have hnew : OpenFits (⟨tag.name, tag.declared⟩ :: frames) := ⟨⟨tag, rfl, hfits⟩, hframes⟩
      obtain ⟨htidy, hkeeps, spelled, hspell⟩ := ih hnew
      obtain ⟨hregular, hread⟩ := hnew.scopeOf
      have htag := hfits.keepsTag hregular
      obtain ⟨first, hfirst⟩ := htag.spellTag?
      have hstep : (Writing.mk [] frames).spell (.start tag) =
          some (.start first, ⟨[], ⟨tag.name, tag.declared⟩ :: frames⟩) := by
        show Option.map _
          (Scope.spellTag? (Writing.scopeOf [] (⟨tag.name, tag.declared⟩ :: frames)) tag) = _
        rw [hfirst]
        rfl
      refine ⟨List.forall_mem_cons.2 ⟨hfits.tidy, htidy⟩, ⟨?_, hkeeps⟩, .start first :: spelled, ?_⟩
      · show Scope.KeepsTag _ (Writing.readIn [] (⟨tag.name, tag.declared⟩ :: frames)) tag
        rw [hread]
        exact htag
      · rw [Writing.spellAll, hstep]
        simp only
        rw [hspell]
  | @finish frame frames rest hrest ih =>
      -- the name is spelled as in the start tag, which is still in scope
      obtain ⟨⟨tag, rfl, hfits⟩, houter⟩ := hframes
      obtain ⟨htidy, hkeeps, spelled, hspell⟩ := ih houter
      have hopen : OpenFits (⟨tag.name, tag.declared⟩ :: frames) := ⟨⟨tag, rfl, hfits⟩, houter⟩
      obtain ⟨name, hname⟩ := (hfits.keepsTag hopen.scopeOf.1).1.spell?
      have hstep : (Writing.mk [] (⟨tag.name, tag.declared⟩ :: frames)).spell (.finish tag.name) =
          some (.finish name, ⟨[], frames⟩) := by
        simp only [Writing.spell, Writing.scope, hname, if_true]
      refine ⟨List.forall_mem_cons.2 ⟨?_, htidy⟩, ⟨trivial, hkeeps⟩, .finish name :: spelled, ?_⟩
      · refine ⟨fun n hn => ?_, trivial, fun tag' htag' => Token.noConfusion htag'⟩
        rw [List.mem_singleton.1 hn]
        exact hfits.word
      · rw [Writing.spellAll, hstep]
        simp only
        rw [hspell]
  | @content frames t rest hnames henclosed hrest ih =>
      -- no names, so nothing changes
      obtain ⟨htidy, hkeeps, spelled, hspell⟩ := ih hframes
      have hafter : (Writing.mk [] frames).after t = ⟨[], frames⟩ := by
        rw [← Writing.eq_after_of_spell (Writing.spell_of_names_eq_nil hnames _)]
      refine ⟨List.forall_mem_cons.2 ⟨?_, htidy⟩, ⟨?_, ?_⟩, t :: spelled, ?_⟩
      · refine ⟨fun n hn => ?_, henclosed, fun tag htag => ?_⟩
        · rw [hnames] at hn
          exact absurd hn List.not_mem_nil
        · rw [htag] at hnames
          exact absurd hnames (List.cons_ne_nil _ _)
      · cases t with
        | start tag => exact absurd hnames (List.cons_ne_nil _ _)
        | _ => trivial
      · rw [hafter]
        exact hkeeps
      · rw [Writing.spellAll, Writing.spell_of_names_eq_nil hnames]
        simp only
        rw [hspell]

/-! ### The byte order mark -/

/-- Only the character U+FEFF is encoded as `Decoder.mark`. -/
theorem head_of_dropRun?_mark {chars : List Char} {rest : Bytes}
    (h : Bytes.dropRun? Decoder.mark (encode chars) = some rest) :
    chars.head? = some (Char.ofNat 0xfeff) := by
  have hbytes := Bytes.dropRun?_eq h
  cases chars with
  | nil => exact absurd hbytes.symm (List.cons_ne_nil _ _)
  | cons c chars =>
      have hfirst := first_utf8EncodeChar c (encode chars)
      have hmark : first (Decoder.mark ++ rest) = .char (Char.ofNat 0xfeff) rest := rfl
      rw [encode_cons] at hbytes
      rw [hbytes, hmark, First.char.injEq] at hfirst
      rw [List.head?_cons, hfirst.1]

/-- What `escapeText` gives begins with U+FEFF only if the text does. -/
theorem head?_escapeText {content : String}
    (h : (escapeText content).toList.head? = some (Char.ofNat 0xfeff)) :
    content.toList.head? = some (Char.ofNat 0xfeff) := by
  rw [escapeText, String.toList_ofList] at h
  cases hchars : content.toList with
  | nil =>
      rw [hchars] at h
      exact absurd h.symm (Option.some_ne_none _)
  | cons c chars =>
      rw [hchars, List.flatMap_cons] at h
      rcases escapes_escapeTextChar c with ⟨hself, -⟩ | ⟨inside, href, -, -⟩
      · rw [hself] at h
        exact h
      · rw [href] at h
        exact absurd (Option.some.inj h) (by decide)

/-- What `printAll` writes begins with `Decoder.mark` only if the first token is a text that does.
-/
theorem Token.not_mark_printAll {tokens : List Token} (hreadable : ∀ t ∈ tokens, t.Enclosed)
    (h : ∀ content rest, tokens = .text content :: rest →
      content.toList.head? ≠ some (Char.ofNat 0xfeff)) :
    Bytes.dropRun? Decoder.mark (Bytes.ofString (printAll tokens)) = none := by
  cases hdrop : Bytes.dropRun? Decoder.mark (Bytes.ofString (printAll tokens)) with
  | none => rfl
  | some rest =>
      cases tokens with
      | nil => exact absurd hdrop.symm (Option.some_ne_none _)
      | cons t tokens =>
          by_cases htext : t.isText = true
          · obtain ⟨content, rfl⟩ : ∃ content, t = .text content := by
              cases t with
              | text content => exact ⟨content, rfl⟩
              | _ => exact Bool.noConfusion htext
            refine absurd (head?_escapeText ?_) (h content tokens rfl)
            have hne : (Token.text content).print.toList ≠ [] := fun hnil =>
              escapeText_ne_empty (hreadable _ List.mem_cons_self) (String.toList_eq_nil_iff.1 hnil)
            rw [printAll, ofString_eq, String.toList_append] at hdrop
            have hhead := head_of_dropRun?_mark hdrop
            rwa [List.head?_append_of_ne_nil _ hne] at hhead
          · obtain ⟨more, hmore⟩ := ofString_print (Bool.eq_false_iff.2 htext)
            rw [printAll, Bytes.ofString_append, hmore] at hdrop
            exact absurd hdrop.symm (Option.some_ne_none _)

/-! ### Documents -/

/-- **Decoding undoes encoding.** Tokens that are `Faithful` are all written by `encodeAll`, and
`Document.decode` reads these tokens from what was written, and nothing wrong. -/
theorem Faithful.decode_encodeAll {tokens : List Token} (h : Faithful tokens) :
    (({} : Encoder).encodeAll tokens).outcome = .ok () ∧
      (Document.decode .strict
          (Bytes.ofString (({} : Encoder).encodeAll tokens).text)).events.map Event.token = tokens ∧
      (Document.decode .strict
          (Bytes.ofString (({} : Encoder).encodeAll tokens).text)).fault? = none := by
  obtain ⟨htidy, hkeeps, spelled, hspell⟩ := h.nested.spellAll trivial
  have hplain : (Writing.mk [] []).Plain :=
    ⟨fun e he => absurd he List.not_mem_nil, fun f hf => absurd hf List.not_mem_nil⟩
  have hencode := Encoder.at_start.encodeAll tokens
  rw [hspell] at hencode
  obtain ⟨last, hencode, -⟩ := hencode
  obtain ⟨hreadable, htexts⟩ := Writing.readable_of_spellAll hplain htidy hspell
  -- the decoder sees the prefixes that the encoder sees
  have houtside : Writing.Mirrors [] [] [] [] := .nil
  obtain ⟨meanings, r, hmeanings, hmirrors, hiff⟩ :=
    Writing.resolveAll?_of_spellAll hplain htidy houtside hspell
  cases hmirrors
  obtain rfl : meanings = tokens := (hiff trivial).2 hkeeps
  have hfront : Bytes.dropRun? Decoder.mark (Bytes.ofString (Token.printAll spelled)) = none := by
    refine Token.not_mark_printAll (fun t ht => (hreadable t ht).enclosed)
      fun content rest heq => ?_
    subst heq
    obtain ⟨rest', hfirst⟩ := Writing.eq_text_of_spellAll hspell
    exact h.front content rest' hfirst
  obtain ⟨hevents, hfault⟩ := Document.decode_printAll hreadable (h.apart.of_map_eq htexts)
    hmeanings hfront
  rw [hencode]
  exact ⟨rfl, hevents, hfault⟩

/-- An element inside another one that binds a prefix of the outer one anew. -/
def shadowing : List Token :=
  [.start ⟨⟨"u", "r"⟩, [⟨⟨"", "xmlns"⟩, "u"⟩, ⟨⟨"xmlns", "p"⟩, "v"⟩, ⟨⟨"v", "x"⟩, "1"⟩]⟩,
    .start ⟨⟨"w", "a"⟩, [⟨⟨"xmlns", "p"⟩, "w"⟩, ⟨⟨"w", "x"⟩, "\"2\" < 3"⟩]⟩,
    .text "a & b", .cdata "]]", .finish ⟨"w", "a"⟩,
    .start ⟨⟨"v", "b"⟩, [⟨⟨"", "x"⟩, "\n"⟩]⟩, .finish ⟨"v", "b"⟩, .finish ⟨"u", "r"⟩]

theorem nested_shadowing : Nested [] shadowing := by
  refine .start (by decide) (.start (by decide) (.content rfl ?_ (.content rfl ?_ (.finish ?_))))
  · show _ ≠ _
    decide
  · show ¬_
    decide
  · exact .start (by decide) (.finish (.finish .nil))

theorem decode_encodeAll_shadowing :
    Faithful shadowing ∧ (({} : Encoder).encodeAll shadowing).outcome = .ok () ∧
      (Document.decode .strict
          (Bytes.ofString (({} : Encoder).encodeAll shadowing).text)).events.map Event.token =
        shadowing ∧
      (Document.decode .strict
          (Bytes.ofString (({} : Encoder).encodeAll shadowing).text)).fault? = none := by
  have hfaithful : Faithful shadowing := by
    refine ⟨nested_shadowing, ?_, fun content rest heq => ?_⟩
    · simp [TextsApart, shadowing, Token.isText]
    · exact absurd (List.cons.inj heq).1 (by simp)
  exact ⟨hfaithful, Faithful.decode_encodeAll hfaithful⟩

end ResourceShards.Markup
