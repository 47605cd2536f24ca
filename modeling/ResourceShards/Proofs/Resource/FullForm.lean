import ResourceShards.Proofs.Resource.Forms

/-!
# ResourceShards.Proofs.Resource.FullForm

**Reading full forms.** Whatever shape a reference has, the name that is read from it has a package
without `:` and `/`, so that its full form falls apart at the first of each. What stands in the way
of reading it back is the sigil alone: a reference that puts the type first may have a package that
begins with `@` or `?`, and its full form is read as if that belonged to the reference.

* `ResourceName.Plain`: what every name that is read has
* `ResourceName.read_text`: how the full form of such a name is read
* `ResourceName.read_text_iff`: which names are read back
-/

namespace ResourceShards.ResourceName

/-! ### What is read -/

/-- A name whose full form falls apart at its first `:` and its first `/`. -/
structure Plain (n : ResourceName) : Prop where
  /-- It has a package. -/
  package : n.package ≠ ""
  /-- The package ends at the first `:`. -/
  colon : ':' ∉ n.package.toList
  /-- It holds no `/`, which comes after the type. -/
  slash : '/' ∉ n.package.toList
  /-- It has a type. -/
  type : n.type ≠ .values
  /-- It has a name. -/
  name : n.name ≠ ""

/-- No part of a reference that is taken for its package holds a `:` or a `/`. -/
theorem parts_ok {raw : String} {context type : ResourceType} {package name : List Char}
    (h : parts raw context = .ok (package, type, name)) : ':' ∉ package ∧ '/' ∉ package := by
  obtain ⟨form, hproper, -, hparts⟩ := exists_form_of_parts h
  cases form with
  | bare name =>
      cases hparts
      exact ⟨List.not_mem_nil, List.not_mem_nil⟩
  | packaged package name =>
      obtain ⟨-, hcolon, hslash, -⟩ := hproper
      cases hparts
      exact ⟨hcolon, hslash⟩
  | typed type name =>
      cases hparts
      exact ⟨List.not_mem_nil, List.not_mem_nil⟩
  | full package type name =>
      obtain ⟨-, hcolon, hslash, -⟩ := hproper
      cases hparts
      exact ⟨hcolon, hslash⟩
  | typeFirst type package name =>
      obtain ⟨-, hcolon, hslash⟩ := hproper
      cases hparts
      exact ⟨hcolon, hslash⟩

/-- The package that a reference means. -/
def packageOf (package : List Char) : String :=
  if package == [] then defaultPackage else String.ofList package

theorem read_eq (raw : String) (context : ResourceType) :
    read raw context =
      match parts raw context with
      | .error e => .error e
      | .ok (package, type, name) =>
        if type = .values then .error (.undeterminedType raw context)
        else if name = [] then .error (.undeterminedName raw context)
        else .ok ⟨packageOf package, type, String.ofList name⟩ := by
  unfold read
  cases parts raw context with
  | error e => rfl
  | ok found =>
      obtain ⟨package, type, name⟩ := found
      by_cases htype : type = .values
      · subst htype
        rfl
      · have hreal : (type == .values) = false := beq_eq_false_iff_ne.2 htype
        simp only [bind, Except.bind, hreal, if_neg htype]
        cases name <;> rfl

theorem packageOf_of_ne_nil {package : List Char} (h : package ≠ []) :
    packageOf package = String.ofList package := by
  rw [packageOf, if_neg (by simpa using h)]

theorem packageOf_plain {package : List Char} (hcolon : ':' ∉ package) (hslash : '/' ∉ package) :
    packageOf package ≠ "" ∧ ':' ∉ (packageOf package).toList ∧
      '/' ∉ (packageOf package).toList := by
  by_cases hpackage : package = []
  · subst hpackage
    decide
  · rw [packageOf_of_ne_nil hpackage, String.toList_ofList]
    exact ⟨by simpa using hpackage, hcolon, hslash⟩

/-- What `read` gives is `Plain`: its `text` falls apart as it should. -/
theorem plain_of_read {raw : String} {context : ResourceType} {n : ResourceName}
    (h : read raw context = .ok n) : n.Plain := by
  rw [read_eq] at h
  cases hparts : parts raw context with
  | error e =>
      rw [hparts] at h
      cases h
  | ok found =>
      obtain ⟨package, type, name⟩ := found
      obtain ⟨hcolon, hslash⟩ := parts_ok hparts
      rw [hparts] at h
      simp only at h
      by_cases htype : type = .values
      · rw [if_pos htype] at h
        cases h
      by_cases hname : name = []
      · rw [if_neg htype, if_pos hname] at h
        cases h
      rw [if_neg htype, if_neg hname] at h
      cases h
      obtain ⟨hne, hcolon', hslash'⟩ := packageOf_plain hcolon hslash
      exact ⟨hne, hcolon', hslash', htype, by simpa using hname⟩

/-! ### Reading it back -/

/-- The package begins with what may stand in front of a reference. -/
def BeginsWithSigil (n : ResourceName) : Prop :=
  n.package.toList.head? = some '@' ∨ n.package.toList.head? = some '?'

instance (n : ResourceName) : Decidable n.BeginsWithSigil :=
  inferInstanceAs (Decidable (_ ∨ _))

theorem toList_text (n : ResourceName) :
    n.text.toList =
      n.package.toList ++ ':' :: (n.type.name.toList ++ '/' :: n.name.toList) := by
  simp [text]

theorem two_lt_utf8ByteSize_text {n : ResourceName} (h : n.Plain) : 2 < n.text.utf8ByteSize := by
  have hpackage : n.package.utf8ByteSize ≠ 0 := by simpa using h.package
  have hname : n.name.utf8ByteSize ≠ 0 := by simpa using h.name
  have hcolon : (":" : String).utf8ByteSize = 1 := by decide
  have hslash : ("/" : String).utf8ByteSize = 1 := by decide
  simp only [text, String.utf8ByteSize_append]
  omega

/-- What `parts` gives for a text in full form, once the sigil is dropped. -/
theorem parts_of_dropSigil {raw : String} {type : ResourceType} {package name : List Char}
    (context : ResourceType)
    (hraw : dropSigil raw = package ++ ':' :: (type.name.toList ++ '/' :: name))
    (hcolon : ':' ∉ package) (hslash : '/' ∉ package) (htype : type ≠ .values) :
    parts raw context =
      if package = [] then .error (.malformedName raw) else .ok (package, type, name) := by
  by_cases hpackage : package = []
  · have hcut : cut ':' (dropSigil raw) = some ([], type.name.toList ++ '/' :: name) := by
      rw [hraw, hpackage]
      exact cut_append _ List.not_mem_nil
    rw [if_pos hpackage]
    unfold parts
    simp only [hcut]
  · rw [if_neg hpackage]
    exact parts_of_form (f := .full package type name) context ⟨hpackage, hcolon, hslash, htype⟩
      hraw

/-- `dropSigil` takes the sigil off a `text` that `BeginsWithSigil`, and nothing off any other. -/
theorem dropSigil_text {n : ResourceName} (h : n.Plain) :
    dropSigil n.text =
      (if n.BeginsWithSigil then n.package.toList.tail else n.package.toList) ++
        ':' :: (n.type.name.toList ++ '/' :: n.name.toList) := by
  have hsize := two_lt_utf8ByteSize_text h
  have hchars := toList_text n
  obtain ⟨c, rest, hpackage⟩ := List.exists_cons_of_ne_nil (l := n.package.toList)
    (by simpa using h.package)
  have hsigil : n.BeginsWithSigil ↔ c = '@' ∨ c = '?' := by
    rw [BeginsWithSigil, hpackage, List.head?_cons, Option.some.injEq, Option.some.injEq]
  rw [hpackage, List.cons_append] at hchars
  rw [dropSigil, hchars, hpackage]
  by_cases hc : c = '@' ∨ c = '?'
  · rw [if_pos (hsigil.2 hc)]
    simp [hc, hsize]
  · rw [if_neg (fun h => hc (hsigil.1 h))]
    simp only [not_or] at hc
    simp [hc.1, hc.2]

/-- `read` gives a `Plain` name back from its `text`, unless it `BeginsWithSigil`: then the sigil is
lost. -/
theorem read_text {n : ResourceName} (h : n.Plain) :
    read n.text n.type =
      if n.BeginsWithSigil then
        if n.package.toList.tail = [] then .error (.malformedName n.text)
        else .ok { n with package := String.ofList n.package.toList.tail }
      else .ok n := by
  have hname : n.name.toList ≠ [] := by simpa using h.name
  have hne : n.package.toList ≠ [] := by simpa using h.package
  have hdrop := dropSigil_text h
  rw [read_eq]
  by_cases hsigil : n.BeginsWithSigil
  · rw [if_pos hsigil] at hdrop ⊢
    rw [parts_of_dropSigil n.type hdrop (fun hmem => h.colon (List.mem_of_mem_tail hmem))
      (fun hmem => h.slash (List.mem_of_mem_tail hmem)) h.type]
    by_cases htail : n.package.toList.tail = []
    · rw [if_pos htail, if_pos htail]
    · rw [if_neg htail, if_neg htail]
      simp only [if_neg h.type, if_neg hname, packageOf_of_ne_nil htail, String.ofList_toList]
  · rw [if_neg hsigil] at hdrop ⊢
    rw [parts_of_dropSigil n.type hdrop h.colon h.slash h.type, if_neg hne]
    simp only [if_neg h.type, if_neg hname, packageOf_of_ne_nil hne, String.ofList_toList]

/-- **Reading a full form again.** A name that was read from some reference is read back from its
`text`, in the context of its own type, exactly if it is not `BeginsWithSigil`: its package begins
with neither `@` nor `?`. -/
theorem read_text_iff {raw : String} {context : ResourceType} {n : ResourceName}
    (h : read raw context = .ok n) : read n.text n.type = .ok n ↔ ¬n.BeginsWithSigil := by
  rw [read_text (plain_of_read h)]
  constructor
  · intro hback hsigil
    rw [if_pos hsigil] at hback
    by_cases htail : n.package.toList.tail = []
    · rw [if_pos htail] at hback
      cases hback
    · -- what is read lacks the sigil
      rw [if_neg htail, Except.ok.injEq] at hback
      have hshorter := congrArg (fun m => m.package.toList.length) hback
      simp only [String.toList_ofList, List.length_tail] at hshorter
      have hne : n.package.toList.length ≠ 0 := by
        simpa using (plain_of_read h).package
      omega
  · intro hsigil
    rw [if_neg hsigil]

/-- A reference with the type in front and a package that begins with a sigil. -/
theorem not_read_text_sigil :
    read "string/@a:b" .values = .ok ⟨"@a", .string, "b"⟩ ∧
      read (ResourceName.text ⟨"@a", .string, "b"⟩) .string ≠ .ok ⟨"@a", .string, "b"⟩ := by
  have hread : read "string/@a:b" .values = .ok ⟨"@a", .string, "b"⟩ := by decide +kernel
  refine ⟨hread, fun hback => ?_⟩
  exact (read_text_iff hread).1 hback (by decide)

end ResourceShards.ResourceName
