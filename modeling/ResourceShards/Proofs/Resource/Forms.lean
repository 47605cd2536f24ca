import Mathlib.Data.List.TakeWhile
import ResourceShards.Resource.Name

/-!
# ResourceShards.Proofs.Resource.Forms

**The forms of references.** Behind its sigil a reference has one of five forms: it is a name, has a
package or a type in front of the name, or has both, in either order. A reader looks for the first
`:` and for the first `/`. In every form these stand in places of their own, so the two tell the
form and all of its parts, and no text has two forms.

* `ResourceName.Form`: the forms, with their parts; `Form.Proper` tells what the parts may hold
* `ResourceName.Form.eq_of_chars_eq`: a text has one form at most
* `ResourceName.parts_of_form`, `ResourceName.exists_form_of_parts`: the texts that have parts are
  those of proper forms, and the parts are those of the form
-/

namespace ResourceShards.ResourceName

/-! ### Cuts -/

theorem cut_append {sep : Char} {before : List Char} (after : List Char) (h : sep ∉ before) :
    cut sep (before ++ sep :: after) = some (before, after) := by
  have hpass : ∀ c ∈ before, (c != sep) = true := by
    intro c hc
    rw [bne_iff_ne]
    intro heq
    exact h (heq ▸ hc)
  rw [cut, List.dropWhile_append_of_pos hpass, List.takeWhile_append_of_pos hpass,
    List.dropWhile_cons_of_neg (by simp), List.takeWhile_cons_of_neg (by simp), List.append_nil]

theorem cut_eq_some {sep : Char} {chars before after : List Char}
    (h : cut sep chars = some (before, after)) : chars = before ++ sep :: after ∧ sep ∉ before := by
  have hsplit := List.takeWhile_append_dropWhile (p := (· != sep)) (l := chars)
  have hpass : sep ∉ chars.takeWhile (· != sep) := by
    intro hmem
    have hne := List.mem_takeWhile_imp hmem
    simp at hne
  unfold cut at h
  cases hdrop : chars.dropWhile (· != sep) with
  | nil =>
      rw [hdrop] at h
      exact absurd h.symm (Option.some_ne_none _)
  | cons c rest =>
      have hc := List.head?_dropWhile_not (· != sep) chars
      rw [hdrop] at h hc hsplit
      simp only [List.head?_cons, bne_eq_false_iff_eq] at hc
      obtain ⟨rfl, rfl⟩ := Prod.mk.inj (Option.some.inj h)
      rw [hc] at hsplit
      exact ⟨hsplit.symm, hpass⟩

theorem cut_eq_none {sep : Char} {chars : List Char} (h : cut sep chars = none) : sep ∉ chars := by
  unfold cut at h
  cases hdrop : chars.dropWhile (· != sep) with
  | cons c rest =>
      rw [hdrop] at h
      exact absurd h (Option.some_ne_none _)
  | nil =>
      intro hmem
      have hne := List.dropWhile_eq_nil_iff.1 hdrop sep hmem
      simp at hne

theorem cut_of_not_mem {sep : Char} {chars : List Char} (h : sep ∉ chars) :
    cut sep chars = none := by
  cases hcut : cut sep chars with
  | none => rfl
  | some found =>
      obtain ⟨hchars, -⟩ := cut_eq_some hcut
      exact absurd (hchars ▸ List.mem_append_right _ List.mem_cons_self) h

theorem takeWhile_of_not_mem {sep : Char} {before : List Char} (after : List Char)
    (h : sep ∉ before) : (before ++ sep :: after).takeWhile (· != sep) = before := by
  have hcut := cut_append after h
  have hdrop : (before ++ sep :: after).dropWhile (· != sep) ≠ [] := by
    intro hnil
    rw [cut, hnil] at hcut
    exact absurd hcut.symm (Option.some_ne_none _)
  obtain ⟨c, rest, hrest⟩ := List.exists_cons_of_ne_nil hdrop
  rw [cut, hrest] at hcut
  exact (Prod.mk.inj (Option.some.inj hcut)).1

/-- Of two cuts of one text at different separators, one comes first. -/
theorem cut_or_cut {sep sep' : Char} (hne : sep ≠ sep') {before after before' after' : List Char}
    (h : before ++ sep :: after = before' ++ sep' :: after') :
    (∃ middle, before' = before ++ sep :: middle ∧ after = middle ++ sep' :: after') ∨
      ∃ middle, before = before' ++ sep' :: middle ∧ after' = middle ++ sep :: after := by
  rcases List.append_eq_append_iff.1 h with ⟨middle, rfl, hrest⟩ | ⟨middle, rfl, hrest⟩
  · cases middle with
    | nil => exact absurd (List.cons.inj hrest).1 hne
    | cons c middle =>
        obtain ⟨rfl, hafter⟩ := List.cons.inj hrest
        exact .inl ⟨middle, rfl, hafter⟩
  · cases middle with
    | nil => exact absurd (List.cons.inj hrest).1.symm hne
    | cons c middle =>
        obtain ⟨rfl, hafter⟩ := List.cons.inj hrest
        exact .inr ⟨middle, rfl, hafter⟩

/-! ### Forms -/

/-- The forms that a reference may have behind its sigil. -/
inductive Form where
  /-- The name alone: `name`. -/
  | bare (name : List Char)
  /-- A package and the name: `package:name`. -/
  | packaged (package name : List Char)
  /-- A type and the name: `type/name`. -/
  | typed (type : ResourceType) (name : List Char)
  /-- All parts, the package first: `package:type/name`. -/
  | full (package : List Char) (type : ResourceType) (name : List Char)
  /-- All parts, the type first: `type/package:name`. -/
  | typeFirst (type : ResourceType) (package name : List Char)
  deriving DecidableEq, Repr

namespace Form

/-- The text of a form. -/
def chars : Form → List Char
  | bare name => name
  | packaged package name => package ++ ':' :: name
  | typed type name => type.name.toList ++ '/' :: name
  | full package type name => package ++ ':' :: (type.name.toList ++ '/' :: name)
  | typeFirst type package name => type.name.toList ++ '/' :: (package ++ ':' :: name)

/-- What the parts of a form may hold. No package has a separator, and only the one behind a type
may be empty. A name may have those separators that the form has in front of it already; with one of
the others the text has another form. -/
def Proper : Form → Prop
  | bare name => ':' ∉ name ∧ '/' ∉ name
  | packaged package name => package ≠ [] ∧ ':' ∉ package ∧ '/' ∉ package ∧ '/' ∉ name
  | typed type name => type ≠ .values ∧ ':' ∉ name
  | full package type _ => package ≠ [] ∧ ':' ∉ package ∧ '/' ∉ package ∧ type ≠ .values
  | typeFirst type package _ => type ≠ .values ∧ ':' ∉ package ∧ '/' ∉ package

instance (f : Form) : Decidable f.Proper := by
  cases f <;> exact inferInstanceAs (Decidable (_ ∧ _))

/-- The parts that a form gives, where `context` is the type that goes without saying. -/
def parts (context : ResourceType) : Form → List Char × ResourceType × List Char
  | bare name => ([], context, name)
  | packaged package name => (package, context, name)
  | typed type name => ([], type, name)
  | full package type name => (package, type, name)
  | typeFirst type package name => (package, type, name)

/-- What stands around the first `:` of the text of a proper form. -/
def aroundColon : Form → Option (List Char × List Char)
  | bare _ => none
  | packaged package name => some (package, name)
  | typed _ _ => none
  | full package type name => some (package, type.name.toList ++ '/' :: name)
  | typeFirst type package name => some (type.name.toList ++ '/' :: package, name)

/-- What stands around the first `/` of the text of a proper form. -/
def aroundSlash : Form → Option (List Char × List Char)
  | bare _ => none
  | packaged _ _ => none
  | typed type name => some (type.name.toList, name)
  | full package type name => some (package ++ ':' :: type.name.toList, name)
  | typeFirst type package name => some (type.name.toList, package ++ ':' :: name)

end Form

/-! ### The first separators -/

theorem colon_not_mem_typeName (type : ResourceType) : ':' ∉ type.name.toList := by
  cases type <;> decide

theorem slash_not_mem_typeName (type : ResourceType) : '/' ∉ type.name.toList := by
  cases type <;> decide

theorem exists_typeName_eq_cons (type : ResourceType) :
    ∃ c rest, type.name.toList = c :: rest := by
  cases type <;> exact ⟨_, _, rfl⟩

/-- `cut` finds the separators of a `Proper` form. -/
theorem Form.cut_chars {f : Form} (h : f.Proper) :
    cut ':' f.chars = f.aroundColon ∧ cut '/' f.chars = f.aroundSlash := by
  cases f with
  | bare name =>
      obtain ⟨hcolon, hslash⟩ := h
      exact ⟨cut_of_not_mem hcolon, cut_of_not_mem hslash⟩
  | packaged package name =>
      obtain ⟨-, hcolon, hslash, hname⟩ := h
      refine ⟨cut_append name hcolon, cut_of_not_mem ?_⟩
      simp [chars, hslash, hname]
  | typed type name =>
      obtain ⟨-, hcolon⟩ := h
      refine ⟨cut_of_not_mem ?_, cut_append name (slash_not_mem_typeName type)⟩
      simp [chars, hcolon, colon_not_mem_typeName]
  | full package type name =>
      obtain ⟨-, hcolon, hslash, -⟩ := h
      refine ⟨cut_append _ hcolon, ?_⟩
      have hfront : '/' ∉ package ++ ':' :: type.name.toList := by
        simp [hslash, slash_not_mem_typeName]
      have hchars : (full package type name).chars =
          (package ++ ':' :: type.name.toList) ++ '/' :: name := by
        simp [chars]
      rw [hchars]
      exact cut_append name hfront
  | typeFirst type package name =>
      obtain ⟨-, hcolon, hslash⟩ := h
      refine ⟨?_, cut_append _ (slash_not_mem_typeName type)⟩
      have hfront : ':' ∉ type.name.toList ++ '/' :: package := by
        simp [hcolon, colon_not_mem_typeName]
      have hchars : (typeFirst type package name).chars =
          (type.name.toList ++ '/' :: package) ++ ':' :: name := by
        simp [chars]
      rw [hchars]
      exact cut_append name hfront

theorem typeName_inj {s t : ResourceType} : s.name.toList = t.name.toList ↔ s = t := by
  refine ⟨fun h => ResourceType.name_injective (String.toList_injective h), ?_⟩
  rintro rfl
  rfl

/-- Two `Proper` forms with the same `chars` are equal. What could be confused are the two forms
with all parts, but the slash stands behind the colon in one of them and in front of it in the
other. -/
theorem Form.eq_of_chars_eq {f g : Form} (hf : f.Proper) (hg : g.Proper)
    (h : f.chars = g.chars) : f = g := by
  obtain ⟨hcolon, hslash⟩ := cut_chars hf
  obtain ⟨hcolon', hslash'⟩ := cut_chars hg
  rw [h, hcolon'] at hcolon
  rw [h, hslash'] at hslash
  cases f <;> cases g <;>
    simp only [aroundColon, aroundSlash, reduceCtorEq, Option.some.injEq, Prod.mk.injEq]
      at hcolon hslash
  case bare.bare => exact congrArg bare h
  case packaged.packaged => rw [hcolon.1, hcolon.2]
  case typed.typed => rw [typeName_inj.1 hslash.1, hslash.2]
  case full.full package type name package' type' name' =>
    obtain ⟨rfl, hrest⟩ := hcolon
    obtain ⟨hfront, rfl⟩ := hslash
    rw [List.append_cancel_right_eq, typeName_inj] at hrest
    rw [hrest]
  case typeFirst.typeFirst type package name type' package' name' =>
    obtain ⟨htype, hrest⟩ := hslash
    obtain ⟨hfront, rfl⟩ := hcolon
    rw [List.append_cancel_right_eq] at hrest
    rw [typeName_inj.1 htype, hrest]
  case full.typeFirst package type name type' package' name' =>
    have hmem : '/' ∈ package := hcolon.1 ▸ List.mem_append_right _ List.mem_cons_self
    exact absurd hmem hf.2.2.1
  case typeFirst.full type package name package' type' name' =>
    have hmem : '/' ∈ package' := hcolon.1 ▸ List.mem_append_right _ List.mem_cons_self
    exact absurd hmem hg.2.2.1

/-! ### Parts -/

theorem readType_name {type : ResourceType} (h : type ≠ .values) :
    readType type.name.toList = .ok type := by
  have hname : ResourceType.ofName? type.name = some type :=
    ResourceType.ofName?_eq_some_iff.2 ⟨h, rfl⟩
  rw [readType, String.ofList_toList, hname]

theorem readType_eq_ok_iff {chars : List Char} {type : ResourceType} :
    readType chars = .ok type ↔ type ≠ .values ∧ chars = type.name.toList := by
  constructor
  · intro h
    unfold readType at h
    cases hname : ResourceType.ofName? (String.ofList chars) with
    | none =>
        rw [hname] at h
        cases h
    | some found =>
        rw [hname] at h
        cases h
        obtain ⟨hreal, hname⟩ := ResourceType.ofName?_eq_some_iff.1 hname
        exact ⟨hreal, by rw [hname, String.toList_ofList]⟩
  · rintro ⟨hreal, rfl⟩
    exact readType_name hreal

/-- `parts` of a text that has a `Proper` form are the parts of the form. -/
theorem parts_of_form {raw : String} {f : Form} (context : ResourceType) (h : f.Proper)
    (hraw : dropSigil raw = f.chars) : parts raw context = .ok (f.parts context) := by
  obtain ⟨hcolon, hslash⟩ := Form.cut_chars h
  unfold parts
  rw [hraw]
  simp only [hcolon, hslash]
  cases f with
  | bare name => rfl
  | packaged package name =>
      cases package with
      | nil => exact absurd rfl h.1
      | cons c package => rfl
  | typed type name =>
      obtain ⟨c, rest, hname⟩ := exists_typeName_eq_cons type
      have htype := readType_name h.1
      simp only [Form.aroundColon, Form.aroundSlash]
      rw [hname] at htype ⊢
      simp only [htype]
      rfl
  | full package type name =>
      obtain ⟨hne, hpackage, hslashes, htype⟩ := h
      obtain ⟨c, rest, rfl⟩ := List.exists_cons_of_ne_nil hne
      have hlt : (c :: rest).length < (c :: rest ++ ':' :: type.name.toList).length := by simp
      simp only [Form.aroundColon, Form.aroundSlash, List.cons_append] at hlt ⊢
      rw [if_pos hlt, takeWhile_of_not_mem name (slash_not_mem_typeName type), readType_name htype]
      rfl
  | typeFirst type package name =>
      obtain ⟨htype, hpackage, hslashes⟩ := h
      obtain ⟨c, rest, hname⟩ := exists_typeName_eq_cons type
      have hread := readType_name htype
      have hle : ¬(type.name.toList ++ '/' :: package).length < type.name.toList.length := by simp
      have hclean : package.contains '/' = false := by simpa using hslashes
      simp only [Form.aroundColon, Form.aroundSlash]
      rw [hname] at hread hle ⊢
      simp only [List.cons_append] at hle ⊢
      rw [if_neg hle, hread, takeWhile_of_not_mem name hpackage]
      simp only [hclean]
      rfl

/-- A text for which `parts` succeeds has a `Proper` form. -/
theorem exists_form_of_parts {raw : String} {context : ResourceType}
    {found : List Char × ResourceType × List Char} (h : parts raw context = .ok found) :
    ∃ f : Form, f.Proper ∧ f.chars = dropSigil raw ∧ f.parts context = found := by
  unfold parts at h
  simp only at h
  split at h
  · cases h
  · cases h
  · rename_i hcolon hslash
    cases h
    exact ⟨.bare (dropSigil raw), ⟨cut_eq_none hcolon, cut_eq_none hslash⟩, rfl, rfl⟩
  · rename_i package name hempty hcolon hslash
    cases h
    obtain ⟨hchars, hpackage⟩ := cut_eq_some hcolon
    have hnone := cut_eq_none hslash
    rw [hchars] at hnone
    simp only [List.mem_append, List.mem_cons, not_or] at hnone
    exact ⟨.packaged package name, ⟨hempty, hpackage, hnone.1, hnone.2.2⟩, hchars.symm, rfl⟩
  · rename_i before name _ hcolon hslash
    cases htype : readType before with
    | error e =>
        rw [htype] at h
        cases h
    | ok type =>
        rw [htype] at h
        cases h
        obtain ⟨hreal, rfl⟩ := readType_eq_ok_iff.1 htype
        obtain ⟨hchars, -⟩ := cut_eq_some hslash
        have hnone := cut_eq_none hcolon
        rw [hchars] at hnone
        simp only [List.mem_append, List.mem_cons, not_or] at hnone
        exact ⟨.typed type name, ⟨hreal, hnone.2.2⟩, hchars.symm, rfl⟩
  · rename_i before name before' after' hempty hempty' hcolon hslash
    obtain ⟨hchars, hfirst⟩ := cut_eq_some hcolon
    obtain ⟨hchars', hfirst'⟩ := cut_eq_some hslash
    rcases cut_or_cut (by decide) (hchars.symm.trans hchars') with
      ⟨middle, rfl, rfl⟩ | ⟨middle, rfl, rfl⟩
    · -- the colon comes first: a package, then the type
      have hlt : before.length < (before ++ ':' :: middle).length := by simp
      rw [if_pos hlt] at h
      simp only [List.mem_append, List.mem_cons, not_or] at hfirst'
      rw [takeWhile_of_not_mem after' hfirst'.2.2] at h
      cases htype : readType middle with
      | error e =>
          rw [htype] at h
          cases h
      | ok type =>
          rw [htype] at h
          cases h
          obtain ⟨hreal, rfl⟩ := readType_eq_ok_iff.1 htype
          exact ⟨.full before type after', ⟨hempty, hfirst, hfirst'.1, hreal⟩, hchars.symm, rfl⟩
    · -- the slash comes first: the type, then a package
      have hle : ¬(before' ++ '/' :: middle).length < before'.length := by simp
      rw [if_neg hle] at h
      simp only [List.mem_append, List.mem_cons, not_or] at hfirst
      rw [takeWhile_of_not_mem name hfirst.2.2] at h
      cases htype : readType before' with
      | error e =>
          rw [htype] at h
          cases h
      | ok type =>
          rw [htype] at h
          by_cases hslashes : middle.contains '/' = true
          · simp only [hslashes] at h
            cases h
          · simp only [hslashes] at h
            cases h
            obtain ⟨hreal, rfl⟩ := readType_eq_ok_iff.1 htype
            refine ⟨.typeFirst type middle name, ⟨hreal, hfirst.2.2, ?_⟩, hchars'.symm, rfl⟩
            intro hmem
            exact hslashes (List.contains_iff_mem.2 hmem)

end ResourceShards.ResourceName
