import ResourceShards.Archive.Close
import ResourceShards.Proofs.Markup.Decoded
import ResourceShards.Proofs.Markup.RoundTrip
import ResourceShards.Proofs.Payload.Outline

/-!
# ResourceShards.Proofs.Payload.SelfContained

**When a payload stands on its own.** A payload is written with the prefixes of all ancestors of its
declaration, but the document that it is put into has only the attributes of the `<resources>` tag
in front of it. It gives the declaration back exactly if every name in it is written with a prefix
that the declaration or the `<resources>` tag declares, and the names of that tag do with its own
prefixes. A prefix that is declared further out, or by the styleable around an attribute, is lost,
and names with it are read as something else.

* `SelfContained`: reading the payload behind the replayed tag gives the declaration
* `Declaration.Anchored`: no name depends on a prefix that is not replayed
-/

namespace ResourceShards

open Markup (Attribute Decoder Document Encoder Event IsWord Name Scope StartTag Strictness
  TextsApart Token View Writing)

/-! ### The two sides -/

/-- The `<resources>` tag with some attributes, a payload and the end tag are a document that is
read strictly without a fault: the tag with those attributes, the tokens, and the end of the tag. -/
def SelfContained (attributes : List Attribute) (payload : Bytes) (tokens : List Token) : Prop :=
  ∃ tag, Session.resourcesTag attributes = .ok tag ∧
    (Document.decode .strict (tag ++ payload ++ Session.footer)).events.map Event.token =
      .start ⟨Tag.resources, attributes⟩ :: (tokens ++ [.finish Tag.resources]) ∧
    (Document.decode .strict (tag ++ payload ++ Session.footer)).fault? = none

/-- Every name of the `<resources>` tag, and every name of the declaration as it is written with the
prefixes of all its ancestors, stands for itself where only the tag's prefixes are declared. -/
def Declaration.Anchored (root : StartTag) (d : Declaration) : Prop :=
  root.declared.KeepsTag root.declared.asWritten root ∧
    (Writing.mk d.scope []).Keeps root.declared.asWritten d.tokens

instance (root : StartTag) (d : Declaration) : Decidable (d.Anchored root) :=
  inferInstanceAs (Decidable (_ ∧ _))

/-- A token of a document as XML has them: local parts are words, declarations do not touch what is
reserved, and document types end where their `<` and `>` are nested. -/
structure Markup.Token.Proper (t : Token) : Prop where
  /-- Its local parts are words. -/
  words : ∀ n ∈ t.names, IsWord n.localPart
  /-- A document type keeps within its markup. -/
  doctype : t.isDoctype = true → t.Enclosed
  /-- Its declarations are taken when they are written again. -/
  allowed : ∀ tag, t = .start tag →
    ∀ entry ∈ tag.declared, Scope.Allows entry.1 (Markup.escapeValue entry.2)

instance (t : Token) : Decidable t.Proper :=
  have : Decidable (∀ tag, t = .start tag →
      ∀ entry ∈ tag.declared, Scope.Allows entry.1 (Markup.escapeValue entry.2)) :=
    match t with
    | .start tag =>
      decidable_of_iff (∀ entry ∈ tag.declared, Scope.Allows entry.1 (Markup.escapeValue entry.2))
        ⟨fun h _ htag => Token.start.inj htag ▸ h, fun h => h tag rfl⟩
    | .finish _ | .text _ | .cdata _ | .comment _ | .instruction _ | .doctype _ =>
      .isTrue fun _ htag => Token.noConfusion htag
  decidable_of_iff (_ ∧ _ ∧ _)
    ⟨fun ⟨words, doctype, allowed⟩ => ⟨words, doctype, allowed⟩,
      fun h => ⟨h.words, h.doctype, h.allowed⟩⟩

theorem Markup.Token.Proper.tidy {t : Token} (h : t.Proper)
    (henclosed : t.isDoctype = false → t.Enclosed) : t.Tidy := by
  refine ⟨h.words, ?_, h.allowed⟩
  cases hdoctype : t.isDoctype with
  | false => exact henclosed hdoctype
  | true => exact h.doctype hdoctype

/-! ### Scopes of declarations -/

/-- The scope of each of `declarationsIn` is `Plain`, since it has the prefixes of the ancestors
only. -/
theorem plain_of_mem_declarationsIn {scope : Scope} {events : List Event} (hscope : scope.Plain)
    (hproper : ∀ e ∈ events, ∀ tag, e.token = .start tag → tag.declared.Plain) :
    ∀ d ∈ declarationsIn scope events, d.scope.Plain := by
  -- as for the walk, the induction is on the length
  induction hn : events.length using Nat.strongRecOn generalizing events scope with
  | ind n ih =>
  cases events with
  | nil =>
      rw [declarationsIn]
      exact fun d hd => absurd hd List.not_mem_nil
  | cons e rest =>
      have hlength : rest.length < n := by
        rw [← hn, List.length_cons]
        exact Nat.lt_succ_self _
      have hrest : ∀ e ∈ rest, ∀ tag, e.token = .start tag → tag.declared.Plain :=
        fun e he => hproper e (List.mem_cons_of_mem _ he)
      cases hstart : e.start? with
      | none =>
          rw [Payload.declarationsIn_of_not_start hstart]
          exact ih rest.length hlength hscope hrest rfl
      | some start =>
          have hleave := ih _ (Nat.lt_of_le_of_lt (View.length_leave_le start.name rest) hlength)
            hscope (fun e he => hrest e ((Payload.leave_suffix start.name rest).subset he)) rfl
          by_cases hskip : Tag.isSkipped start.name = true
          · rw [Payload.declarationsIn_of_skipped hstart hskip]
            exact hleave
          cases hname : Payload.declarationName start with
          | error err =>
              rw [declarationsIn]
              simp only [hstart, hname]
              rw [if_neg hskip]
              exact fun d hd => absurd hd List.not_mem_nil
          | ok name =>
              have htag : start.declared.Plain :=
                hproper e List.mem_cons_self start (Payload.token_of_start? hstart)
              have hinside := ih _
                (Nat.lt_of_le_of_lt (View.length_inside_le (.whole []) start.name rest) hlength)
                (htag.append hscope)
                (fun e he => hrest e ((Payload.prefix_inside start.name rest).subset he)) rfl
              rw [Payload.declarationsIn_cons hstart hskip hname]
              intro d hd
              rcases List.mem_append.1 hd with hone | hmore
              · rw [List.mem_singleton.1 hone]
                exact hscope
              rcases List.mem_append.1 hmore with hin | hout
              · by_cases hstyleable : (name.type == .styleable) = true
                · rw [if_pos hstyleable] at hin
                  exact hinside d hin
                · rw [if_neg hstyleable] at hin
                  exact absurd hin List.not_mem_nil
              · exact hleave d hout

/-- The tag of an outline is `<resources>`, and the prefixes of its declarations are words. -/
theorem Outline.plain_of_ofEvents {w : Writing} {events : List Event} {o : Outline} (hw : w.Plain)
    (hproper : ∀ e ∈ events, ∀ tag, e.token = .start tag → tag.declared.Plain)
    (h : ofEvents w events = some o) :
    o.root.name = Tag.resources ∧ ∀ d ∈ o.declarations, d.scope.Plain := by
  induction events generalizing w with
  | nil => exact absurd h.symm (Option.some_ne_none _)
  | cons e rest ih =>
      have hafter : (w.after e.token).Plain := by
        cases htoken : e.token with
        | start tag =>
            refine ⟨hw.1, ?_⟩
            intro frame hframe
            rcases List.mem_cons.1 hframe with rfl | hframe
            · exact hproper e List.mem_cons_self tag htoken
            · exact hw.2 frame hframe
        | finish name => exact ⟨hw.1, fun frame hframe => hw.2 frame (List.mem_of_mem_tail hframe)⟩
        | _ => exact hw
      have hrest : ∀ e ∈ rest, ∀ tag, e.token = .start tag → tag.declared.Plain :=
        fun e he => hproper e (List.mem_cons_of_mem _ he)
      unfold ofEvents at h
      cases hstart : e.start? with
      | none =>
          simp only [hstart] at h
          exact ih hafter hrest h
      | some start =>
          simp only [hstart] at h
          by_cases hresources : Tag.isResources start.name = true
          · rw [if_pos hresources, Option.some.injEq] at h
            subst h
            refine ⟨beq_iff_eq.1 hresources, ?_⟩
            exact plain_of_mem_declarationsIn hafter.scope
              fun e he => hrest e ((Payload.prefix_inside start.name rest).subset he)
          · rw [if_neg hresources] at h
            exact ih hafter hrest h

/-! ### The document that is read -/

/-- A `<resources>` tag in front of everything else is spelled with its own prefixes. -/
theorem spell_resources (attributes : List Attribute) :
    (Writing.mk [] []).spell (.start ⟨Tag.resources, attributes⟩) =
      ((Scope.ofAttributes attributes).spellTag? ⟨Tag.resources, attributes⟩).map fun spelled =>
        (.start spelled, (Writing.mk [] []).enter ⟨Tag.resources, attributes⟩) := by
  have hscope : ((Writing.mk [] []).enter ⟨Tag.resources, attributes⟩).scope =
      Scope.ofAttributes attributes := List.append_nil _
  rw [Writing.spell, hscope]

/-- `resourcesTag` writes what `spellTag?` spells, and fails if that does. -/
theorem resourcesTag_eq (attributes : List Attribute) :
    match (Scope.ofAttributes attributes).spellTag? ⟨Tag.resources, attributes⟩ with
    | some spelled =>
      Session.resourcesTag attributes = .ok (Bytes.ofString (Token.start spelled).print)
    | none => ∃ err, Session.resourcesTag attributes = .error err := by
  have hwritten := Encoder.at_start.encode (.start ⟨Tag.resources, attributes⟩)
  rw [spell_resources] at hwritten
  cases htag : (Scope.ofAttributes attributes).spellTag? ⟨Tag.resources, attributes⟩ with
  | none =>
      rw [htag] at hwritten
      obtain ⟨text, e', err, hencode⟩ := hwritten
      exact ⟨err, by rw [Session.resourcesTag, hencode]⟩
  | some spelled =>
      rw [htag] at hwritten
      obtain ⟨e', hencode, -⟩ := hwritten
      simp only [Session.resourcesTag, hencode]

/-- `spellTag?` leaves the name of `Tag.resources` as it is. -/
theorem spellTag?_resources {scope : Scope} {attributes : List Attribute} {spelled : StartTag}
    (h : scope.spellTag? ⟨Tag.resources, attributes⟩ = some spelled) :
    ∃ attributes', spelled = ⟨Tag.resources, attributes'⟩ ∧
      scope.spellAttributes? attributes = some attributes' := by
  simp only [Scope.spellTag?, Option.bind_eq_bind, Option.bind_eq_some_iff] at h
  obtain ⟨name, hname, attributes', hattributes, hsome⟩ := h
  obtain rfl : name = Tag.resources := (Option.some.inj hname).symm
  exact ⟨attributes', (Option.some.inj hsome).symm, hattributes⟩

/-- Between a start tag and an end tag tokens stay `TextsApart`. -/
theorem textsApart_enclosed {tokens : List Token} (h : TextsApart tokens) (tag : StartTag)
    (name : Name) : TextsApart (.start tag :: (tokens ++ [.finish name])) := by
  have hfinish : TextsApart (tokens ++ [.finish name]) := by
    refine List.isChain_append.2 ⟨h, .singleton _, ?_⟩
    intro x hx y hy
    rw [List.head?_cons, Option.mem_def, Option.some.injEq] at hy
    intro _
    rw [← hy]
    rfl
  cases hall : tokens ++ [Token.finish name] with
  | nil => exact .singleton _
  | cons t rest =>
      rw [hall] at hfinish
      exact List.isChain_cons_cons.2 ⟨fun ht => Bool.noConfusion ht, hfinish⟩

/-- Tokens behind the tag are resolved in the scope of the tag. -/
theorem resolveAll?_behind_resources {scope : Scope} {attributes : List Attribute}
    {spelled meanings : List Token}
    (hscope : StartTag.declared ⟨Tag.resources, attributes⟩ = scope)
    (h : Markup.Reading.resolveAll? [⟨Tag.resources, scope.asWritten⟩] spelled =
      some (meanings, [⟨Tag.resources, scope.asWritten⟩])) :
    Markup.Reading.resolveAll? []
        (.start ⟨Tag.resources, attributes⟩ :: (spelled ++ [.finish Tag.resources])) =
      some (.start (scope.asWritten.resolveTag ⟨Tag.resources, attributes⟩) ::
        (meanings ++ [.finish (scope.asWritten.resolve false Tag.resources)]), []) := by
  have henter : Markup.Reading.enter [] ⟨Tag.resources, attributes⟩ =
      [⟨Tag.resources, scope.asWritten⟩] := by
    rw [Markup.Reading.enter, hscope]
    exact congrArg (fun scope => [Markup.Unclosed.mk Tag.resources scope]) (List.append_nil _)
  have hfirst : Markup.Reading.resolve? [] (.start ⟨Tag.resources, attributes⟩) =
      some (.start (scope.asWritten.resolveTag ⟨Tag.resources, attributes⟩),
        [⟨Tag.resources, scope.asWritten⟩]) := by
    rw [Markup.Reading.resolve?, henter]
    rfl
  rw [Markup.Reading.resolveAll?, hfirst]
  simp only
  rw [Markup.Reading.resolveAll?_append, h]
  rfl

/-- Tokens put between the tag and its end tag are `Readable` if the tag is. -/
theorem readable_behind_resources {attributes : List Attribute} {spelled : List Token}
    (hroot : (Token.start ⟨Tag.resources, attributes⟩).Readable)
    (hspelled : ∀ t ∈ spelled, t.Readable) :
    ∀ t ∈ Token.start ⟨Tag.resources, attributes⟩ :: (spelled ++ [.finish Tag.resources]),
      t.Readable := by
  refine List.forall_mem_cons.2 ⟨hroot, ?_⟩
  intro t ht
  rcases List.mem_append.1 ht with ht | ht
  · exact hspelled t ht
  · rw [List.mem_singleton.1 ht]
    refine ⟨⟨fun n hn => ?_, trivial⟩, fun tag htag => Token.noConfusion htag⟩
    rw [List.mem_singleton.1 hn]
    exact hroot.names _ List.mem_cons_self

/-- The bytes in an archive are those of the tag, the payload and `Session.footer`. -/
theorem ofString_behind_resources {attributes : List Attribute} {d : Declaration}
    {spelled : List Token} {w : Writing}
    (h : Writing.spellAll ⟨d.scope, []⟩ d.tokens = some (spelled, w)) :
    Bytes.ofString (Token.printAll (.start ⟨Tag.resources, attributes⟩ ::
        (spelled ++ [.finish Tag.resources]))) =
      Bytes.ofString (Token.start ⟨Tag.resources, attributes⟩).print ++ d.payload ++
        Session.footer := by
  have hpayload : d.payload = Bytes.ofString (Token.printAll spelled) := by
    rw [Declaration.payload, Declaration.spelled?, h]
    rfl
  rw [Token.printAll, Token.printAll_append, Bytes.ofString_append, Bytes.ofString_append,
    hpayload, List.append_assoc]
  rfl

/-- What is read between the tags is what was put there exactly if the tag and the tokens are. -/
theorem read_eq_iff {scope : Scope} {attributes attributes' : List Attribute}
    {meanings tokens : List Token} :
    Token.start (scope.resolveTag ⟨Tag.resources, attributes'⟩) ::
        (meanings ++ [.finish (scope.resolve false Tag.resources)]) =
      .start ⟨Tag.resources, attributes⟩ :: (tokens ++ [.finish Tag.resources]) ↔
    scope.resolveTag ⟨Tag.resources, attributes'⟩ = ⟨Tag.resources, attributes⟩ ∧
      meanings = tokens := by
  rw [List.cons.injEq, Token.start.injEq]
  refine and_congr_right ?_
  intro htag
  -- the end tag has the name of the start tag
  have hname : scope.resolve false Tag.resources = Tag.resources := congrArg StartTag.name htag
  rw [hname]
  exact List.append_left_inj _

/-- A written declaration is `SelfContained` behind the tag exactly if it is `Anchored` in it. -/
theorem selfContained_iff_anchored {attributes : List Attribute} {d : Declaration}
    (hroot : (Token.start ⟨Tag.resources, attributes⟩).Tidy) (htidy : ∀ t ∈ d.tokens, t.Tidy)
    (hapart : TextsApart d.tokens) (hscope : d.scope.Plain) (hwritten : d.Written) :
    SelfContained attributes d.payload d.tokens ↔ d.Anchored ⟨Tag.resources, attributes⟩ := by
  -- whether the tag can be written decides first
  have htag := resourcesTag_eq attributes
  have hdeclared :
      StartTag.declared ⟨Tag.resources, attributes⟩ = Scope.ofAttributes attributes := rfl
  cases hspell : (Scope.ofAttributes attributes).spellTag? ⟨Tag.resources, attributes⟩ with
  | none =>
      rw [hspell] at htag
      obtain ⟨err, herr⟩ := htag
      constructor
      · rintro ⟨tag, hok, -⟩
        rw [herr] at hok
        cases hok
      · rintro ⟨hkeeps, -⟩
        obtain ⟨spelled, hspelled⟩ := hkeeps.spellTag?
        rw [hdeclared, hspell] at hspelled
        exact absurd hspelled.symm (Option.some_ne_none _)
  | some root =>
      have hfirst := spell_resources attributes
      rw [hspell, Option.map_some] at hfirst
      rw [hspell] at htag
      simp only at htag
      obtain ⟨attributes', rfl, hattributes⟩ := spellTag?_resources hspell
      obtain ⟨spelled, hall⟩ := hwritten
      have hplain : (Writing.mk d.scope []).Plain :=
        ⟨hscope, fun f hf => absurd hf List.not_mem_nil⟩
      obtain ⟨hreadable, htexts⟩ := Writing.readable_of_spellAll hplain htidy hall
      have hread := readable_behind_resources
        (Writing.readable_of_spell (fun e he => absurd he List.not_mem_nil) hroot hfirst) hreadable
      -- the element is read in the scope that the replayed tag opens
      obtain ⟨meanings, r, hmeanings, hlast, hiff⟩ :=
        Writing.resolveAll?_of_spellAll hplain htidy
          (.nil : Writing.Mirrors d.scope
            [⟨Tag.resources, (Scope.ofAttributes attributes).asWritten⟩] [] _) hall
      cases hlast
      have hmeaning := resolveAll?_behind_resources
        (Scope.Plain.spellAttributes? hroot.plain_declared hattributes).1 hmeanings
      obtain ⟨hevents, hfault⟩ := Document.decode_printAll hread
        (textsApart_enclosed (hapart.of_map_eq htexts) _ _) hmeaning
        (Token.not_mark_printAll (fun t ht => (hread t ht).enclosed) fun content rest heq =>
          Token.noConfusion (List.cons.inj heq).1)
      rw [ofString_behind_resources hall] at hevents hfault
      have hanchored : d.Anchored ⟨Tag.resources, attributes⟩ ↔
          (Scope.ofAttributes attributes).asWritten.resolveTag ⟨Tag.resources, attributes'⟩ =
            ⟨Tag.resources, attributes⟩ ∧ meanings = d.tokens := by
        rw [Declaration.Anchored, hdeclared, Scope.keepsTag_iff rfl hattributes, hiff trivial]
        rfl
      rw [hanchored, ← read_eq_iff, ← hevents]
      constructor
      · rintro ⟨tag, hok, hdecoded, -⟩
        rw [htag, Except.ok.injEq] at hok
        rw [hok]
        exact hdecoded
      · exact fun hdecoded => ⟨_, htag, hdecoded, hfault⟩

/-! ### Documents that are accepted -/

/-- **When a payload stands on its own.** A document that `ofDocument` accepts hands out the items
of its `outline?`: the attributes of its `<resources>` tag and the payloads of its declarations. A
payload is `SelfContained` behind the replayed tag exactly if the declaration is `Anchored`, so that
no name in it depends on a prefix that is not replayed. -/
theorem Payload.selfContained_iff {label : String} {reader : Decoder} {items : List Collected}
    (hok : Listening.trace (ofDocument label (Document.ofDecoder .strict reader)) = (items, .ok ()))
    (hproper : ∀ e ∈ (Document.ofDecoder .strict reader).events, e.token.Proper) :
    items = ((outline? (Document.ofDecoder .strict reader)).map Outline.items).getD [] ∧
      ∀ o, outline? (Document.ofDecoder .strict reader) = some o → ∀ d ∈ o.declarations,
        (SelfContained o.root.attributes d.payload d.tokens ↔ d.Anchored o.root) := by
  have hout := ofDocument_ok hok
  obtain ⟨henclosed, hapart⟩ := Document.ofDecoder_tokens reader
  have htidy : ∀ t ∈ (Document.ofDecoder .strict reader).events.map Event.token, t.Tidy := by
    intro t ht
    obtain ⟨e, he, rfl⟩ := List.mem_map.1 ht
    exact (hproper e he).tidy (henclosed e he)
  cases houtline : outline? (Document.ofDecoder .strict reader) with
  | none =>
      rw [houtline] at hout
      exact ⟨List.reverse_eq_nil_iff.1 hout, fun o ho => absurd ho.symm (Option.some_ne_none o)⟩
  | some o =>
      rw [houtline] at hout
      -- declarations are pieces of the document, and what holds of its tokens holds of theirs
      obtain ⟨hroot, hhands⟩ := hout
      constructor
      · have hitems := congrArg List.reverse hhands.listener
        simpa [Outline.items] using hitems
      · intro o' ho' d hd
        obtain rfl : o = o' := Option.some.inj ho'
        obtain ⟨hname, hscope⟩ := Outline.plain_of_ofEvents
          ⟨fun e he => absurd he List.not_mem_nil, fun f hf => absurd hf List.not_mem_nil⟩
          (fun e he tag htag => (htag ▸ htidy _ (List.mem_map_of_mem he)).plain_declared) houtline
        obtain ⟨⟨name, attributes⟩, declarations⟩ := o
        obtain rfl : name = Tag.resources := hname
        have hpiece := hhands.pieces d hd
        have hapartIn : TextsApart d.tokens := hapart.infix hpiece
        exact selfContained_iff_anchored (htidy _ hroot) (fun t ht => htidy t (hpiece.subset ht))
          hapartIn (hscope d hd) (hhands.written d hd)

/-- A declaration with a prefix that an element around `<resources>` declares. -/
def foreignPrefix : Declaration where
  scope := [("p", "u")]
  name := ⟨ResourceName.defaultPackage, .string, "a"⟩
  tag := ⟨⟨"", "string"⟩, [⟨⟨"", "name"⟩, "a"⟩, ⟨⟨"u", "x"⟩, "1"⟩]⟩
  inside := []

/-- A document with that declaration. -/
def foreignDocument : Bytes :=
  Bytes.ofString
    "<r xmlns:p=\"u\"><resources><string name=\"a\" p:x=\"1\"></string></resources></r>"

/-- Its tokens. -/
def foreignTokens : List Token :=
  [.start ⟨⟨"", "r"⟩, [⟨⟨"xmlns", "p"⟩, "u"⟩]⟩, .start ⟨Tag.resources, []⟩] ++
    foreignPrefix.tokens ++ [.finish Tag.resources, .finish ⟨"", "r"⟩]

theorem tokens_foreignDocument :
    (Document.decode .strict foreignDocument).events.map Event.token = foreignTokens := by
  decide +kernel

/-- `foreignDocument` is accepted, but what is written for its declaration does not give it back. -/
theorem not_selfContained_foreignPrefix :
    Listening.trace (Payload.ofDocument "" (Document.decode .strict foreignDocument)) =
        ([foreignPrefix.collected], .ok ()) ∧
      (∀ e ∈ (Document.decode .strict foreignDocument).events, e.token.Proper) ∧
      Payload.outline? (Document.decode .strict foreignDocument) =
        some ⟨⟨Tag.resources, []⟩, [foreignPrefix]⟩ ∧
      ¬SelfContained [] foreignPrefix.payload foreignPrefix.tokens := by
  have hok : Listening.trace (Payload.ofDocument "" (Document.decode .strict foreignDocument)) =
      ([foreignPrefix.collected], .ok ()) := by decide +kernel
  have houtline : Payload.outline? (Document.decode .strict foreignDocument) =
      some ⟨⟨Tag.resources, []⟩, [foreignPrefix]⟩ := by decide +kernel
  have hproper : ∀ e ∈ (Document.decode .strict foreignDocument).events, e.token.Proper := by
    intro e he
    have htokens : ∀ t ∈ foreignTokens, t.Proper := by decide +kernel
    refine htokens _ ?_
    rw [← tokens_foreignDocument]
    exact List.mem_map_of_mem he
  refine ⟨hok, hproper, houtline, ?_⟩
  intro h
  have hanchored := ((Payload.selfContained_iff hok hproper).2 _ houtline foreignPrefix
    List.mem_cons_self).1 h
  exact absurd hanchored (by decide +kernel)

end ResourceShards
