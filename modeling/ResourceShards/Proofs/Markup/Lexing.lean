import ResourceShards.Markup.Lexeme
import ResourceShards.Proofs.Markup.Escape
import ResourceShards.Proofs.Markup.Spelling

/-!
# ResourceShards.Proofs.Markup.Lexing

**What is printed falls into the pieces it was printed from.** Names are free of the bytes that end
them, values of the quote that does, and the content of a comment, a CDATA section, a processing
instruction or a document type of what closes it. So the first piece of a printed token followed by
anything is the token, and the attributes of a printed start tag are those it was printed from. Only
text needs something behind it that begins markup.

* `Token.Legible`: spelled tokens for which this holds
* `Lexeme.read_print`: the piece that is read of a printed token
* `RawAttribute.readAll_printAll`: the attributes that are read of a printed tag
-/

namespace ResourceShards.Markup

open ResourceShards.Utf8

/-! ### Cuts -/

theorem cutFirst_of_not_mem {sep : UInt8} {x : Bytes} (h : sep ∉ x) :
    Bytes.cutFirst sep x = none := by
  have hne : ∀ b ∈ x, (b != sep) = true := fun b hb => bne_iff_ne.2 fun heq => h (heq ▸ hb)
  unfold Bytes.cutFirst
  rw [← List.append_nil x, List.dropWhile_append_of_pos hne]
  rfl

theorem cutFirst_append {sep : UInt8} {x : Bytes} (h : sep ∉ x) (rest : Bytes) :
    Bytes.cutFirst sep (x ++ sep :: rest) = some (x, rest) := by
  have hne : ∀ b ∈ x, (b != sep) = true := fun b hb => bne_iff_ne.2 fun heq => h (heq ▸ hb)
  unfold Bytes.cutFirst
  rw [List.dropWhile_append_of_pos hne, List.takeWhile_append_of_pos hne]
  simp

/-! ### Names -/

/-- The characters of ASCII that end a name or make a piece something other than a tag. -/
def reserved : List Char :=
  " \t\n\r\"'<>=/!?".toList

/-- Characters of prefixes and local parts. Letters, digits, `_`, `-` and `.` are among them. -/
def isNameChar (c : Char) : Bool :=
  !reserved.contains c && c != ':'

/-- Prefixes and local parts: they are not empty and consist of characters of names. -/
def IsWord (s : String) : Prop :=
  s ≠ "" ∧ ∀ c ∈ s.toList, isNameChar c = true

instance (s : String) : Decidable (IsWord s) :=
  have : Decidable (∀ c ∈ s.toList, isNameChar c = true) := List.decidableBAll _ _
  inferInstanceAs (Decidable (_ ∧ _))

/-- A spelled name of words; it may do without a prefix. -/
def Name.Legible (spelled : Name) : Prop :=
  (spelled.space = "" ∨ IsWord spelled.space) ∧ IsWord spelled.localPart

/-- Bytes of written names. -/
def isNameByte (b : UInt8) : Bool :=
  !(reserved.map fun c => UInt8.ofNat c.toNat).contains b

theorem ne_of_isNameByte {b other : UInt8} (h : isNameByte b = true)
    (hother : isNameByte other = false) : b ≠ other := by
  intro heq
  rw [heq, hother] at h
  exact Bool.noConfusion h

theorem isBlank_of_isNameByte {b : UInt8} (h : isNameByte b = true) : Bytes.isBlank b = false := by
  have hspace : b ≠ 0x20 := ne_of_isNameByte h (by decide)
  have htab : b ≠ 0x09 := ne_of_isNameByte h (by decide)
  have hfeed : b ≠ 0x0a := ne_of_isNameByte h (by decide)
  have hreturn : b ≠ 0x0d := ne_of_isNameByte h (by decide)
  simp [Bytes.isBlank, hspace, htab, hfeed, hreturn]

theorem isNameByte_of_reserved {s : String} (h : ∀ c ∈ s.toList, reserved.contains c = false) :
    ∀ b ∈ Bytes.ofString s, isNameByte b = true := by
  have hreserved : (reserved.map fun c => UInt8.ofNat c.toNat).all (fun b =>
      decide (b.toNat < 0x80) && reserved.contains (Char.ofNat b.toNat)) = true := by decide
  intro b hb
  by_contra hno
  have hmem : b ∈ reserved.map fun c => UInt8.ofNat c.toNat := by
    simpa [isNameByte] using hno
  obtain ⟨hlow, hchar⟩ := Bool.and_eq_true_iff.1 (List.all_eq_true.1 hreserved b hmem)
  rw [h _ (mem_of_mem_ofString (of_decide_eq_true hlow) hb)] at hchar
  exact Bool.noConfusion hchar

theorem IsWord.reserved {s : String} (h : IsWord s) :
    ∀ c ∈ s.toList, reserved.contains c = false := by
  intro c hc
  have := h.2 c hc
  simp only [isNameChar, Bool.and_eq_true, Bool.not_eq_true'] at this
  exact this.1

namespace Name

theorem Legible.isNameByte {spelled : Name} (h : spelled.Legible) :
    ∀ b ∈ Bytes.ofString spelled.written, isNameByte b = true := by
  refine isNameByte_of_reserved ?_
  intro c hc
  unfold written at hc
  by_cases hempty : spelled.space == ""
  · rw [if_pos hempty] at hc
    exact h.2.reserved c hc
  · rw [if_neg hempty] at hc
    have hspace : IsWord spelled.space :=
      h.1.resolve_left fun heq => hempty (beq_iff_eq.2 heq)
    rw [String.toList_append, String.toList_append, List.mem_append, List.mem_append] at hc
    rcases hc with (hc | hc) | hc
    · exact hspace.reserved c hc
    · rw [List.mem_singleton.1 hc]
      decide
    · exact h.2.reserved c hc

theorem Legible.ofString_written {spelled : Name} (h : spelled.Legible) :
    ∃ b bytes, Bytes.ofString spelled.written = b :: bytes := by
  have hne : spelled.written ≠ "" := by
    unfold written
    split
    · exact h.2.1
    · intro heq
      exact h.2.1 (String.append_eq_empty_iff.1 heq).2
  cases hbytes : Bytes.ofString spelled.written with
  | nil => exact absurd (ofString_injective (t := "") (hbytes.trans rfl)) hne
  | cons b bytes => exact ⟨b, bytes, rfl⟩

end Name

/-! ### Tags -/

namespace Attribute

/-- An attribute with a spelled name, as it is read from a tag. -/
def raw (a : Attribute) : RawAttribute :=
  ⟨Bytes.ofString a.name.written, Bytes.ofString (escapeValue a.value)⟩

theorem ofString_print (a : Attribute) :
    Bytes.ofString a.print = 0x20 :: (a.raw.key ++ 0x3d :: 0x22 :: (a.raw.value ++ [0x22])) := by
  have hblank : Bytes.ofString " " = [0x20] := by decide
  have hequals : Bytes.ofString "=\"" = [0x3d, 0x22] := by decide
  have hquote : Bytes.ofString "\"" = [0x22] := by decide
  simp only [print, Bytes.ofString_append, hblank, hequals, hquote, raw]
  simp

/-- The value of `Attribute.raw` holds no quote, so it is read up to its closing one. -/
theorem quote_not_mem_raw (a : Attribute) : (0x22 : UInt8) ∉ a.raw.value :=
  mt (mem_of_mem_ofString (by decide)) (quote_not_mem_escapeValue a.value)

end Attribute

namespace Lexeme

theorem tagEnd_plain {x : Bytes} (h : ∀ b ∈ x, b ≠ closing ∧ b ≠ 0x22 ∧ b ≠ 0x27)
    (seen rest : Bytes) : tagEnd none seen (x ++ rest) = tagEnd none (x.reverse ++ seen) rest := by
  induction x generalizing seen with
  | nil => rfl
  | cons b x ih =>
      obtain ⟨hclosing, hdouble, hsingle⟩ := h b List.mem_cons_self
      rw [List.cons_append, tagEnd]
      simp only [beq_eq_false_iff_ne.2 hclosing, beq_eq_false_iff_ne.2 hdouble,
        beq_eq_false_iff_ne.2 hsingle, Bool.or_self, Bool.false_eq_true, if_false]
      rw [ih fun c hc => h c (List.mem_cons_of_mem b hc)]
      simp

theorem tagEnd_quoted {q : UInt8} {x : Bytes} (h : q ∉ x) (seen rest : Bytes) :
    tagEnd (some q) seen (x ++ q :: rest) = tagEnd none (q :: (x.reverse ++ seen)) rest := by
  induction x generalizing seen with
  | nil =>
      rw [List.nil_append, tagEnd]
      simp
  | cons b x ih =>
      have hb : b ≠ q := fun heq => h (heq ▸ List.mem_cons_self)
      rw [List.cons_append, tagEnd]
      simp only [beq_eq_false_iff_ne.2 hb, Bool.false_eq_true, if_false]
      rw [ih fun hmem => h (List.mem_cons_of_mem b hmem)]
      simp

theorem tagEnd_name {spelled : Name} (h : spelled.Legible) (seen rest : Bytes) :
    tagEnd none seen (Bytes.ofString spelled.written ++ rest) =
      tagEnd none ((Bytes.ofString spelled.written).reverse ++ seen) rest :=
  tagEnd_plain (fun b hb => ⟨ne_of_isNameByte (h.isNameByte b hb) (by decide),
    ne_of_isNameByte (h.isNameByte b hb) (by decide),
    ne_of_isNameByte (h.isNameByte b hb) (by decide)⟩) seen rest

theorem tagEnd_attribute {a : Attribute} (h : a.name.Legible) (seen rest : Bytes) :
    tagEnd none seen (Bytes.ofString a.print ++ rest) =
      tagEnd none ((Bytes.ofString a.print).reverse ++ seen) rest := by
  have hname := tagEnd_name h (0x20 :: seen) (0x3d :: 0x22 :: (a.raw.value ++ 0x22 :: rest))
  have hvalue := tagEnd_quoted a.quote_not_mem_raw
    (0x22 :: 0x3d :: (a.raw.key.reverse ++ 0x20 :: seen)) rest
  rw [a.ofString_print]
  simp only [List.cons_append, List.append_assoc, List.nil_append]
  -- the blank, the name, `=`, the first quote and what it encloses
  have hblank : tagEnd none seen
      (0x20 :: (a.raw.key ++ 0x3d :: 0x22 :: (a.raw.value ++ 0x22 :: rest))) =
      tagEnd none (0x20 :: seen)
        (a.raw.key ++ 0x3d :: 0x22 :: (a.raw.value ++ 0x22 :: rest)) := rfl
  have hopen : ∀ before after : Bytes, tagEnd none before (0x3d :: 0x22 :: after) =
      tagEnd (some 0x22) (0x22 :: 0x3d :: before) after := fun _ _ => rfl
  rw [hblank]
  show tagEnd none (0x20 :: seen) (Bytes.ofString a.name.written ++ _) = _
  rw [hname, hopen]
  show tagEnd (some 0x22) (0x22 :: 0x3d :: (a.raw.key.reverse ++ 0x20 :: seen)) _ = _
  rw [hvalue]
  congr 1
  simp

theorem tagEnd_printAll {attributes : List Attribute}
    (h : ∀ a ∈ attributes, a.name.Legible) (seen rest : Bytes) :
    tagEnd none seen (Bytes.ofString (Attribute.printAll attributes) ++ rest) =
      tagEnd none ((Bytes.ofString (Attribute.printAll attributes)).reverse ++ seen) rest := by
  induction attributes generalizing seen with
  | nil => rfl
  | cons a attributes ih =>
      rw [Attribute.printAll, Bytes.ofString_append, List.append_assoc,
        tagEnd_attribute (h a List.mem_cons_self),
        ih fun b hb => h b (List.mem_cons_of_mem a hb)]
      simp

/-- What `Attribute.printAll` writes ends in a quote, if there is an attribute. -/
theorem getLast?_printAll {a : Attribute} {attributes : List Attribute} (front : Bytes) :
    (front ++ Bytes.ofString (Attribute.printAll (a :: attributes))).getLast? = some 0x22 := by
  -- the last attribute decides, so the front grows by one attribute at a time
  induction attributes generalizing a front with
  | nil =>
      rw [Attribute.printAll, Attribute.printAll, Bytes.ofString_append, a.ofString_print]
      show (front ++
        ((0x20 :: (a.raw.key ++ 0x3d :: 0x22 :: (a.raw.value ++ [0x22]))) ++ [])).getLast? = _
      simp [List.getLast?_append, List.getLast?_cons]
  | cons b attributes ih =>
      rw [Attribute.printAll, Bytes.ofString_append, ← List.append_assoc]
      exact ih _

/-- The inside of a printed start tag does not end in a slash, so the tag does not close itself. -/
theorem getLast?_tag {tag : StartTag} (h : tag.name.Legible) :
    (Bytes.ofString tag.name.written ++
      Bytes.ofString (Attribute.printAll tag.attributes)).getLast? ≠ some slash := by
  cases hattributes : tag.attributes with
  | nil =>
      show (Bytes.ofString tag.name.written ++ []).getLast? ≠ _
      rw [List.append_nil]
      intro hlast
      exact ne_of_isNameByte (h.isNameByte _ (List.mem_of_getLast? hlast)) (by decide) rfl
  | cons a attributes =>
      rw [getLast?_printAll]
      decide

/-- A printed start tag is read to its `>`. -/
theorem readStart_tag {tag : StartTag} (hname : tag.name.Legible)
    (hattributes : ∀ a ∈ tag.attributes, a.name.Legible) (rest : Bytes) :
    ∃ n, readStart (Bytes.ofString tag.name.written ++
        (Bytes.ofString (Attribute.printAll tag.attributes) ++ closing :: rest)) =
      .piece (.startTag (Bytes.ofString tag.name.written ++
        Bytes.ofString (Attribute.printAll tag.attributes)) false) n rest := by
  have hend : tagEnd none [] (Bytes.ofString tag.name.written ++
        (Bytes.ofString (Attribute.printAll tag.attributes) ++ closing :: rest)) =
      some (Bytes.ofString tag.name.written ++
        Bytes.ofString (Attribute.printAll tag.attributes), rest) := by
    rw [tagEnd_name hname, tagEnd_printAll hattributes, tagEnd]
    simp
  have hlast : ¬((Bytes.ofString tag.name.written ++
      Bytes.ofString (Attribute.printAll tag.attributes)).getLast? == some slash) = true := by
    rw [beq_iff_eq]
    exact getLast?_tag hname
  rw [readStart, hend]
  simp only [startOf]
  rw [if_neg hlast]
  exact ⟨_, rfl⟩

end Lexeme

/-! ### Attributes of a tag -/

namespace RawAttribute

theorem readFirst_print {a : Attribute} (h : a.name.Legible) (size : Nat) (rest : Bytes) :
    readFirst size (Bytes.ofString a.print ++ rest) = .one a.raw rest := by
  -- the key has a first byte, so that no blank before it is taken for it
  obtain ⟨k, more, hkey⟩ := h.ofString_written
  have hbytes : ∀ b ∈ k :: more, isNameByte b = true := hkey ▸ h.isNameByte
  have hk : Bytes.isBlank k = false := isBlank_of_isNameByte (hbytes k List.mem_cons_self)
  have hmore : ∀ b ∈ more, inKey b = true := by
    intro b hb
    have := hbytes b (List.mem_cons_of_mem k hb)
    have hequals : b ≠ equals := ne_of_isNameByte this (by decide)
    rw [inKey, bne_iff_ne.2 hequals, isBlank_of_isNameByte this]
    rfl
  have htake : ∀ after : Bytes, (more ++ equals :: after).takeWhile inKey = more := by
    intro after
    rw [List.takeWhile_append_of_pos hmore, List.takeWhile_cons, if_neg (by decide),
      List.append_nil]
  have hdrop : ∀ after : Bytes, (more ++ equals :: after).dropWhile inKey = equals :: after := by
    intro after
    rw [List.dropWhile_append_of_pos hmore, List.dropWhile_cons, if_neg (by decide)]
  have hcut : Bytes.cutFirst 0x22 (a.raw.value ++ 0x22 :: rest) = some (a.raw.value, rest) :=
    cutFirst_append a.quote_not_mem_raw rest
  have hraw : a.raw.key = k :: more := hkey
  rw [a.ofString_print, hraw]
  simp only [List.cons_append, List.append_assoc, List.nil_append]
  have hfront : (0x20 :: k :: (more ++ 0x3d :: 0x22 :: (a.raw.value ++ 0x22 :: rest))).dropWhile
      Bytes.isBlank = k :: (more ++ equals :: 0x22 :: (a.raw.value ++ 0x22 :: rest)) := by
    rw [List.dropWhile_cons, if_pos (by decide), List.dropWhile_cons, if_neg (by rw [hk]; decide)]
    rfl
  have hequals : (equals :: 0x22 :: (a.raw.value ++ 0x22 :: rest)).dropWhile Bytes.isBlank =
      equals :: 0x22 :: (a.raw.value ++ 0x22 :: rest) := by
    rw [List.dropWhile_cons, if_neg (by decide)]
  have hquote : (0x22 :: (a.raw.value ++ 0x22 :: rest)).dropWhile Bytes.isBlank =
      0x22 :: (a.raw.value ++ 0x22 :: rest) := by
    rw [List.dropWhile_cons, if_neg (by decide)]
  unfold readFirst
  rw [hfront]
  simp only [hdrop, htake, hequals, beq_self_eq_true, if_true, readValue, hquote, hcut,
    Bool.true_or]
  rw [← hraw]

/-- `readAll` reads what `Attribute.printAll` wrote. -/
theorem readAll_printAll {attributes : List Attribute} (h : ∀ a ∈ attributes, a.name.Legible)
    (size : Nat) :
    readAll size (Bytes.ofString (Attribute.printAll attributes)) =
      (attributes.map Attribute.raw, none) := by
  induction attributes with
  | nil =>
      rw [readAll]
      rfl
  | cons a attributes ih =>
      have hfirst := readFirst_print (h a List.mem_cons_self) size
        (Bytes.ofString (Attribute.printAll attributes))
      have hrest := ih fun b hb => h b (List.mem_cons_of_mem a hb)
      rw [Attribute.printAll, Bytes.ofString_append, readAll]
      split <;> simp_all

end RawAttribute

/-! ### Other markup -/

/-- `cutRun` finds a run of three bytes whose last one differs from the others, which are equal,
behind bytes that do not hold it: no part of it can be the end of what precedes it. -/
theorem cutRun_of_not_infix {a c : UInt8} (hne : a ≠ c) {x : Bytes} (h : ¬[a, a, c] <:+: x)
    (seen rest : Bytes) :
    Bytes.cutRun [a, a, c] seen (x ++ a :: a :: c :: rest) = some (seen.reverse ++ x, rest) := by
  induction x generalizing seen with
  | nil =>
      rw [List.nil_append, Bytes.cutRun]
      simp [Bytes.dropRun?]
  | cons b x ih =>
      have hno : Bytes.dropRun? [a, a, c] (b :: x ++ a :: a :: c :: rest) = none := by
        cases hrun : Bytes.dropRun? [a, a, c] (b :: x ++ a :: a :: c :: rest) with
        | none => rfl
        | some after =>
            have heq := Bytes.dropRun?_eq hrun
            cases x with
            | nil =>
                simp only [List.cons_append, List.nil_append, List.cons.injEq] at heq
                exact absurd heq.2.2.1 hne
            | cons d x =>
                cases x with
                | nil =>
                    simp only [List.cons_append, List.nil_append, List.cons.injEq] at heq
                    exact absurd heq.2.2.1 hne
                | cons e x =>
                    simp only [List.cons_append, List.nil_append, List.cons.injEq] at heq
                    obtain ⟨rfl, rfl, rfl, -⟩ := heq
                    exact absurd ⟨[], x, rfl⟩ h
      have hx : ¬[a, a, c] <:+: x := fun hin => h (hin.trans (List.suffix_cons b x).isInfix)
      rw [List.cons_append] at hno ⊢
      rw [Bytes.cutRun, hno]
      simp only
      rw [ih hx]
      simp

/-- Document types whose `<` and `>` are nested, when `depth` of them are open already. -/
def isNestedFrom : Nat → List Char → Bool
  | depth, [] => depth == 0
  | depth, '<' :: rest => isNestedFrom (depth + 1) rest
  | 0, '>' :: _ => false
  | depth + 1, '>' :: rest => isNestedFrom depth rest
  | depth, _ :: rest => isNestedFrom depth rest

/-- Content that does not run into the markup around it: text is not empty; what is between the
delimiters of another piece does not hold the one that closes it. Document types begin with
something other than a blank, and their `<` and `>` are nested. -/
def Token.Enclosed : Token → Prop
  | .text content => content ≠ ""
  | .cdata content => ¬"]]>".toList <:+: content.toList
  | .comment content => ¬"-->".toList <:+: content.toList
  | .instruction content => content ≠ "" ∧ '>' ∉ content.toList
  | .doctype content =>
    content ≠ "" ∧ Text.trimStart content = content ∧ isNestedFrom 0 content.toList = true
  | _ => True

instance (t : Token) : Decidable t.Enclosed :=
  match t with
  | .text _ => inferInstanceAs (Decidable (_ ≠ _))
  | .cdata _ | .comment _ => inferInstanceAs (Decidable (¬_ <:+: _))
  | .instruction _ => inferInstanceAs (Decidable (_ ∧ _))
  | .doctype _ => inferInstanceAs (Decidable (_ ∧ _ ∧ _))
  | .start _ | .finish _ => inferInstanceAs (Decidable True)

namespace Lexeme

theorem toClosing_append {x : Bytes} (h : closing ∉ x) (rest : Bytes) :
    toClosing (x ++ closing :: rest) = (x, x.length + 1, rest) := by
  have hne : ∀ b ∈ x, (b != closing) = true := by
    intro b hb
    exact bne_iff_ne.2 fun heq => h (heq ▸ hb)
  unfold toClosing
  rw [List.dropWhile_append_of_pos hne, List.takeWhile_append_of_pos hne]
  simp

/-- `doctypeEnd` passes over bytes that neither open nor close anything. -/
theorem doctypeEnd_plain {x : Bytes} (hopening : opening ∉ x) (hclosing : closing ∉ x)
    (depth : Nat) (seen rest : Bytes) :
    doctypeEnd .whole depth seen (x ++ rest) =
      doctypeEnd .whole depth (x.reverse ++ seen) rest := by
  induction x generalizing seen with
  | nil => rfl
  | cons b x ih =>
      obtain ⟨hfirst, hopening⟩ := not_or.1 (mt List.mem_cons.2 hopening)
      obtain ⟨hfirst', hclosing⟩ := not_or.1 (mt List.mem_cons.2 hclosing)
      rw [List.cons_append, doctypeEnd]
      simp only [Arrival.pass, beq_eq_false_iff_ne.2 (Ne.symm hfirst),
        beq_eq_false_iff_ne.2 (Ne.symm hfirst'), Bool.false_eq_true, if_false]
      rw [ih hopening hclosing]
      simp

/-- A document type that arrives as a whole ends where its `<` and `>` are nested. -/
theorem doctypeEnd_nested {depth : Nat} {chars : List Char} (h : isNestedFrom depth chars = true)
    (seen rest : Bytes) :
    doctypeEnd .whole depth seen (encode chars ++ closing :: rest) =
      some (seen.reverse ++ encode chars, rest) := by
  fun_induction isNestedFrom depth chars generalizing seen with
  | case1 depth =>
      rw [beq_iff_eq] at h
      subst h
      rw [encode_nil, List.nil_append, doctypeEnd]
      simp [Arrival.pass]
  | case2 depth chars ih =>
      have hopen : encode ('<' :: chars) = opening :: encode chars := rfl
      rw [hopen, List.cons_append, doctypeEnd]
      simp only [Arrival.pass, show (opening == closing) = false from rfl, Bool.false_eq_true,
        if_false, beq_self_eq_true, if_true]
      rw [ih h]
      simp
  | case3 chars => exact Bool.noConfusion h
  | case4 depth chars ih =>
      have hclose : encode ('>' :: chars) = closing :: encode chars := rfl
      rw [hclose, List.cons_append, doctypeEnd]
      simp only [Arrival.pass, beq_self_eq_true, if_true, Bool.false_eq_true, if_false]
      rw [ih h]
      simp
  | case5 depth c chars hlt hzero hsucc ih =>
      have hgt : c ≠ '>' := by
        cases depth with
        | zero => exact fun heq => hzero rfl heq
        | succ depth => exact fun heq => hsucc depth rfl heq
      have hone : String.utf8EncodeChar c = encode [c] := (List.append_nil _).symm
      have hopening : opening ∉ encode [c] := fun hmem =>
        hlt (List.mem_singleton.1 (mem_of_mem_encode (by decide) hmem)).symm
      have hclosing : closing ∉ encode [c] := fun hmem =>
        hgt (List.mem_singleton.1 (mem_of_mem_encode (by decide) hmem)).symm
      rw [encode_cons, List.append_assoc, hone, doctypeEnd_plain hopening hclosing, ih h]
      simp

theorem dropWord?_append (word : String) (x : Bytes) :
    dropWord? word (Bytes.ofString word ++ x) = some x := by
  unfold dropWord?
  simp

/-- What begins with a byte that does not occur in `front` does not begin there. -/
theorem infix_of_append {a : UInt8} {run front x : Bytes} (hfront : a ∉ front)
    (h : a :: run <:+: front ++ x) : a :: run <:+: x := by
  induction front with
  | nil => exact h
  | cons b front ih =>
      rw [List.mem_cons, not_or] at hfront
      rw [List.cons_append, List.infix_cons_iff] at h
      rcases h with ⟨tail, htail⟩ | h
      · rw [List.cons_append, List.cons.injEq] at htail
        exact absurd htail.1 hfront.1
      · exact ih hfront.2 h

/-! ### Printed tokens -/

theorem read_cdata {content : String} (h : (Token.cdata content).Enclosed) (position : Nat)
    (rest : Bytes) :
    ∃ n, read none position (Bytes.ofString (Token.cdata content).print ++ rest) =
      .piece (.cdata (Bytes.ofString content)) n rest := by
  have hrun : ¬[0x5d, 0x5d, 0x3e] <:+: Bytes.ofString "[CDATA[" ++ Bytes.ofString content := by
    intro hin
    have hin' := infix_of_append (by decide) hin
    rw [ofString_eq] at hin'
    exact h (infix_of_encode (by decide) hin')
  have hcut := cutRun_of_not_infix (by decide) hrun [] rest
  rw [List.append_assoc] at hcut
  have hread : read none position (Bytes.ofString (Token.cdata content).print ++ rest) =
      readCData (Bytes.ofString "[CDATA[" ++
        (Bytes.ofString content ++ 0x5d :: 0x5d :: 0x3e :: rest)) := by
    simp only [Token.print, Bytes.ofString_append, List.append_assoc]
    rfl
  rw [hread, readCData]
  simp only [closing, hcut, List.reverse_nil, List.nil_append, dropWord?_append]
  exact ⟨_, rfl⟩

theorem read_comment {content : String} (h : (Token.comment content).Enclosed) (position : Nat)
    (rest : Bytes) :
    ∃ n, read none position (Bytes.ofString (Token.comment content).print ++ rest) =
      .piece (.comment (Bytes.ofString content)) n rest := by
  have hrun : ¬[0x2d, 0x2d, 0x3e] <:+: Bytes.ofString content := by
    intro hin
    rw [ofString_eq] at hin
    exact h (infix_of_encode (by decide) hin)
  have hcut := cutRun_of_not_infix (by decide) hrun [] rest
  have hread : read none position (Bytes.ofString (Token.comment content).print ++ rest) =
      readComment (Bytes.ofString "--" ++
        (Bytes.ofString content ++ 0x2d :: 0x2d :: 0x3e :: rest)) := by
    simp only [Token.print, Bytes.ofString_append, List.append_assoc]
    rfl
  have hdrop : ∀ x : Bytes, (Bytes.ofString "--" ++ x).drop 2 = x := fun _ => rfl
  rw [hread, readComment, hdrop]
  simp only [closing, hcut, List.reverse_nil, List.nil_append, dropWord?_append, Option.isSome_some,
    if_true]
  exact ⟨_, rfl⟩

theorem read_instruction {content : String} (h : (Token.instruction content).Enclosed)
    (position : Nat) (rest : Bytes) :
    ∃ n, read none position (Bytes.ofString (Token.instruction content).print ++ rest) =
      .piece (.instruction (Bytes.ofString content)) n rest := by
  obtain ⟨hne, hclosing⟩ := h
  have hmem : closing ∉ Bytes.ofString content ++ [question] := by
    rw [List.mem_append, List.mem_singleton, not_or]
    exact ⟨mt (mem_of_mem_ofString (by decide)) hclosing, by decide⟩
  have hlength : 0 < (Bytes.ofString content).length := by
    refine List.length_pos_iff.2 fun hnil => hne ?_
    exact ofString_injective (hnil.trans rfl)
  have hread : read none position (Bytes.ofString (Token.instruction content).print ++ rest) =
      readInstruction (Bytes.ofString content ++ [question] ++ closing :: rest) := by
    simp only [Token.print, Bytes.ofString_append, List.append_assoc]
    rfl
  rw [hread, readInstruction, toClosing_append hmem]
  have hlast : (Bytes.ofString content ++ [question]).getLast? = some question := by simp
  have htwo : 2 ≤ (Bytes.ofString content ++ [question]).length := by
    rw [List.length_append, List.length_singleton]
    omega
  simp only [hlast, htwo, decide_true, beq_self_eq_true, Bool.and_self, if_true,
    List.dropLast_concat]
  exact ⟨_, rfl⟩

/-- A text that `trimStart` leaves as it is begins with no blank byte. -/
theorem dropWhile_isBlank_of_trimStart {content : String} (hne : content ≠ "")
    (h : Text.trimStart content = content) :
    (Bytes.ofString content).dropWhile Bytes.isBlank = Bytes.ofString content := by
  cases hchars : content.toList with
  | nil => exact absurd (String.toList_eq_nil_iff.1 hchars) hne
  | cons c chars =>
      have hc : Text.isBlank c = false := by
        by_contra hblank
        rw [Bool.not_eq_false] at hblank
        have hlength := congrArg (fun s : String => s.toList.length) h
        simp only [Text.trimStart, hchars, String.toList_ofList, List.dropWhile_cons, hblank,
          if_true, List.length_cons] at hlength
        have := (List.dropWhile_sublist Text.isBlank (l := chars)).length_le
        omega
      rw [ofString_eq, hchars, encode_cons]
      rcases utf8EncodeChar_cases c with ⟨hlow, henc⟩ | ⟨-, hhigh⟩
      · rw [henc, List.cons_append, List.nil_append, List.dropWhile_cons, if_neg]
        intro hblank
        have hbyte : Char.ofNat (UInt8.ofNat c.toNat).toNat = c := by
          rw [toNat_ofNat_of_lt (by omega), Char.ofNat_toNat]
        simp only [Bytes.isBlank, Bool.or_eq_true, beq_iff_eq] at hblank
        rcases hblank with ((hb | hb) | hb) | hb <;> rw [hb] at hbyte <;> rw [← hbyte] at hc <;>
          exact absurd hc (by decide)
      · cases hbytes : String.utf8EncodeChar c with
        | nil => exact absurd hbytes String.utf8EncodeChar_ne_nil
        | cons b bytes =>
            rw [List.cons_append, List.dropWhile_cons, if_neg]
            intro hblank
            have hb : 0x80 ≤ b.toNat := hhigh b (hbytes ▸ List.mem_cons_self)
            simp only [Bytes.isBlank, Bool.or_eq_true, beq_iff_eq] at hblank
            rcases hblank with ((heq | heq) | heq) | heq <;> rw [heq] at hb <;>
              exact absurd hb (by decide)

theorem read_doctype {content : String} (h : (Token.doctype content).Enclosed) (position : Nat)
    (rest : Bytes) :
    ∃ n, read none position (Bytes.ofString (Token.doctype content).print ++ rest) =
      .piece (.doctype (Bytes.ofString content)) n rest := by
  obtain ⟨hne, htrim, hnested⟩ := h
  have hread : read none position (Bytes.ofString (Token.doctype content).print ++ rest) =
      readDoctype .whole (Bytes.ofString "DOCTYPE" ++ ([0x20] ++ (Bytes.ofString content ++
        closing :: rest))) := by
    simp only [Token.print, htrim, Bytes.ofString_append, List.append_assoc]
    rfl
  have hend : doctypeEnd .whole 0 [] (Bytes.ofString "DOCTYPE" ++ ([0x20] ++
        (Bytes.ofString content ++ closing :: rest))) =
      some (Bytes.ofString "DOCTYPE" ++ ([0x20] ++ Bytes.ofString content), rest) := by
    rw [doctypeEnd_plain (by decide) (by decide), doctypeEnd_plain (by decide) (by decide),
      ofString_eq content, doctypeEnd_nested hnested]
    simp
  have hblank : ([0x20] ++ Bytes.ofString content).dropWhile Bytes.isBlank =
      Bytes.ofString content := by
    rw [List.cons_append, List.nil_append, List.dropWhile_cons, if_pos (by decide),
      dropWhile_isBlank_of_trimStart hne htrim]
  rw [hread, readDoctype, hend]
  simp only [dropWord?_append, hblank]
  split
  · rename_i hnil
    exact absurd (ofString_injective (t := "") (hnil.trans rfl)) hne
  · exact ⟨_, rfl⟩

theorem read_finish {name : Name} (h : name.Legible) (position : Nat) (rest : Bytes) :
    ∃ n, read none position (Bytes.ofString (Token.finish name).print ++ rest) =
      .piece (.endTag (Bytes.ofString name.written)) n rest := by
  have hmem : closing ∉ Bytes.ofString name.written := by
    intro hin
    exact ne_of_isNameByte (h.isNameByte _ hin) (by decide) rfl
  have hread : read none position (Bytes.ofString (Token.finish name).print ++ rest) =
      readEnd (Bytes.ofString name.written ++ closing :: rest) := by
    simp only [Token.print, Bytes.ofString_append, List.append_assoc]
    rfl
  rw [hread, readEnd, toClosing_append hmem]
  exact ⟨_, rfl⟩

theorem read_start {tag : StartTag} (hname : tag.name.Legible)
    (hattributes : ∀ a ∈ tag.attributes, a.name.Legible) (position : Nat) (rest : Bytes) :
    ∃ n, read none position (Bytes.ofString (Token.start tag).print ++ rest) =
      .piece (.startTag (Bytes.ofString tag.name.written ++
        Bytes.ofString (Attribute.printAll tag.attributes)) false) n rest := by
  obtain ⟨n, hstart⟩ := readStart_tag hname hattributes rest
  obtain ⟨b, bytes, hb⟩ := hname.ofString_written
  have hbyte : isNameByte b = true := hname.isNameByte b (hb ▸ List.mem_cons_self)
  have hbang : (b == 0x21) = false := beq_eq_false_iff_ne.2 (ne_of_isNameByte hbyte (by decide))
  have hslash : (b == slash) = false := beq_eq_false_iff_ne.2 (ne_of_isNameByte hbyte (by decide))
  have hquestion : (b == question) = false :=
    beq_eq_false_iff_ne.2 (ne_of_isNameByte hbyte (by decide))
  refine ⟨n, ?_⟩
  rw [← hstart]
  have hread : Bytes.ofString (Token.start tag).print ++ rest =
      opening :: (Bytes.ofString tag.name.written ++
        (Bytes.ofString (Attribute.printAll tag.attributes) ++ closing :: rest)) := by
    simp only [Token.print, Bytes.ofString_append, List.append_assoc]
    rfl
  rw [hread, hb, List.cons_append, read]
  simp only [bne_self_eq_false, Bool.false_eq_true, if_false, hbang, hslash, hquestion]

theorem read_text {content : String} (h : (Token.text content).Enclosed) (position : Nat)
    {rest : Bytes} (hrest : rest = [] ∨ ∃ more, rest = opening :: more) :
    ∃ n, read none position (Bytes.ofString (Token.text content).print ++ rest) =
      .piece (.text (Bytes.ofString (escapeText content))) n rest := by
  have hne : ∀ b ∈ Bytes.ofString (escapeText content), (b != opening) = true := by
    intro b hb
    rw [bne_iff_ne]
    rintro rfl
    exact lt_not_mem_escapeText content (mem_of_mem_ofString (by decide) hb)
  cases hbytes : Bytes.ofString (escapeText content) with
  | nil => exact absurd (ofString_injective (t := "") (hbytes.trans rfl)) (escapeText_ne_empty h)
  | cons b bytes =>
      rw [hbytes] at hne
      have hmore : ∀ c ∈ bytes, (c != opening) = true :=
        fun c hc => hne c (List.mem_cons_of_mem b hc)
      have htake : (bytes ++ rest).takeWhile (· != opening) = bytes := by
        rw [List.takeWhile_append_of_pos hmore]
        rcases hrest with rfl | ⟨more, rfl⟩
        · simp
        · rw [List.takeWhile_cons, if_neg (by simp), List.append_nil]
      have hdrop : (bytes ++ rest).dropWhile (· != opening) = rest := by
        rw [List.dropWhile_append_of_pos hmore]
        rcases hrest with rfl | ⟨more, rfl⟩
        · rfl
        · rw [List.dropWhile_cons, if_neg (by simp)]
      show ∃ n, read none position (Bytes.ofString (escapeText content) ++ rest) = _
      have hread : read none position (b :: (bytes ++ rest)) = readTextFrom b (bytes ++ rest) := by
        unfold read
        exact if_pos (hne b List.mem_cons_self)
      rw [hbytes, List.cons_append, hread, readTextFrom, htake, hdrop]
      exact ⟨_, rfl⟩

end Lexeme

/-! ### Legible tokens -/

/-- The names in a token. -/
def Token.names : Token → List Name
  | .start tag => tag.name :: tag.attributes.map Attribute.name
  | .finish name => [name]
  | _ => []

/-- A token is a tag or has no `names`. -/
theorem Token.tag_or_names_eq_nil (t : Token) :
    (∃ tag, t = .start tag) ∨ (∃ name, t = .finish name) ∨ t.names = [] := by
  cases t with
  | start tag => exact .inl ⟨tag, rfl⟩
  | finish name => exact .inr (.inl ⟨name, rfl⟩)
  | _ => exact .inr (.inr rfl)

/-- A spelled token that is read as it is printed. -/
structure Token.Legible (spelled : Token) : Prop where
  /-- Its names are made of words. -/
  names : ∀ n ∈ spelled.names, n.Legible
  /-- Its content keeps within the markup around it. -/
  enclosed : spelled.Enclosed

/-- The piece that a printed token is. -/
def Token.lexeme : Token → Lexeme
  | .start tag => .startTag (Bytes.ofString tag.name.written ++
      Bytes.ofString (Attribute.printAll tag.attributes)) false
  | .finish name => .endTag (Bytes.ofString name.written)
  | .text content => .text (Bytes.ofString (escapeText content))
  | .cdata content => .cdata (Bytes.ofString content)
  | .comment content => .comment (Bytes.ofString content)
  | .instruction content => .instruction (Bytes.ofString content)
  | .doctype content => .doctype (Bytes.ofString content)

/-- Whether a token is text. -/
def Token.isText : Token → Bool
  | .text _ => true
  | _ => false

/-- `read` gives back what `print` wrote, whatever follows it; text needs the end of the document or
the beginning of markup behind it. -/
theorem Lexeme.read_print {spelled : Token} (h : spelled.Legible) (position : Nat) {rest : Bytes}
    (hrest : spelled.isText = true → rest = [] ∨ ∃ more, rest = opening :: more) :
    ∃ n, read none position (Bytes.ofString spelled.print ++ rest) =
      .piece spelled.lexeme n rest := by
  cases spelled with
  | start tag =>
      refine read_start (h.names _ List.mem_cons_self) (fun a ha => ?_) position rest
      exact h.names _ (List.mem_cons_of_mem _ (List.mem_map_of_mem ha))
  | finish name => exact read_finish (h.names _ List.mem_cons_self) position rest
  | text content => exact read_text h.enclosed position (hrest rfl)
  | cdata content => exact read_cdata h.enclosed position rest
  | comment content => exact read_comment h.enclosed position rest
  | instruction content => exact read_instruction h.enclosed position rest
  | doctype content => exact read_doctype h.enclosed position rest

/-- What `print` writes for a token that is not text begins with the byte of markup. -/
theorem Token.ofString_print {spelled : Token} (h : spelled.isText = false) :
    ∃ more, Bytes.ofString spelled.print = Lexeme.opening :: more := by
  cases spelled with
  | text content => exact Bool.noConfusion h
  | start tag => exact ⟨_, by simp only [print, Bytes.ofString_append, List.append_assoc]; rfl⟩
  | finish name => exact ⟨_, by simp only [print, Bytes.ofString_append, List.append_assoc]; rfl⟩
  | cdata content => exact ⟨_, by simp only [print, Bytes.ofString_append, List.append_assoc]; rfl⟩
  | comment content =>
      exact ⟨_, by simp only [print, Bytes.ofString_append, List.append_assoc]; rfl⟩
  | instruction content =>
      exact ⟨_, by simp only [print, Bytes.ofString_append, List.append_assoc]; rfl⟩
  | doctype content =>
      exact ⟨_, by simp only [print, Bytes.ofString_append, List.append_assoc]; rfl⟩

end ResourceShards.Markup
