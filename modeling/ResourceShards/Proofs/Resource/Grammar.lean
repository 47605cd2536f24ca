import ResourceShards.Proofs.Resource.FullForm

/-!
# ResourceShards.Proofs.Resource.Grammar

**The grammar of references.** A text is read as a reference exactly if, behind its sigil, it has
one of the forms of references and that form gives it a type and a name. No text has two forms, so
the form also tells which resource is meant.

* `ResourceName.Form.resource`: the resource that a form means
* `ResourceName.Behind`: what stands behind the sigil of a reference
* `ResourceName.read_eq_ok_iff_form`: what is read are the texts of proper forms, and nothing else
-/

namespace ResourceShards.ResourceName

/-- The resource that a form means, where `context` is the type that goes without saying. -/
def Form.resource (context : ResourceType) : Form → ResourceName
  | bare name => ⟨defaultPackage, context, String.ofList name⟩
  | packaged package name => ⟨String.ofList package, context, String.ofList name⟩
  | typed type name => ⟨defaultPackage, type, String.ofList name⟩
  | full package type name => ⟨String.ofList package, type, String.ofList name⟩
  | typeFirst type package name => ⟨packageOf package, type, String.ofList name⟩

/-- What stands behind the sigil of a reference: all but its first character, if that is `@` or `?`
and the reference is longer than two bytes, otherwise all of it. -/
def Behind (raw : String) (rest : List Char) : Prop :=
  2 < raw.utf8ByteSize ∧ (raw.toList = '@' :: rest ∨ raw.toList = '?' :: rest) ∨
    ¬(2 < raw.utf8ByteSize ∧ (raw.toList.head? = some '@' ∨ raw.toList.head? = some '?')) ∧
      raw.toList = rest

instance (raw : String) (rest : List Char) : Decidable (Behind raw rest) :=
  inferInstanceAs (Decidable (_ ∨ _))

theorem behind_iff {raw : String} {rest : List Char} : Behind raw rest ↔ dropSigil raw = rest := by
  unfold Behind dropSigil
  cases raw.toList with
  | nil => simp
  | cons c chars =>
      by_cases hlong : 2 < raw.utf8ByteSize
      · by_cases hsigil : c = '@' ∨ c = '?'
        · simp only [List.cons.injEq, List.head?_cons, Option.some.injEq, hlong, hsigil]
          rcases hsigil with rfl | rfl <;> simp
        · simp only [not_or] at hsigil
          simp [hlong, hsigil.1, hsigil.2]
      · simp [hlong]

theorem Form.resource_eq {f : Form} (h : f.Proper) (context : ResourceType) :
    f.resource context =
      ⟨packageOf (f.parts context).1, (f.parts context).2.1,
        String.ofList (f.parts context).2.2⟩ := by
  cases f with
  | packaged package name => rw [resource, parts, packageOf_of_ne_nil h.1]
  | full package type name => rw [resource, parts, packageOf_of_ne_nil h.1]
  | _ => rfl

/-- **The grammar of references.** `read` gives a name exactly if the reference has a `Proper` form
behind its sigil, the form means that name, and the name has a text and a type of resources. No text
has two proper forms. -/
theorem read_eq_ok_iff_form (raw : String) (context : ResourceType) (n : ResourceName) :
    (read raw context = .ok n ↔
      n.name ≠ "" ∧ n.type ≠ .values ∧
        ∃ (rest : List Char) (form : Form), Behind raw rest ∧ form.Proper ∧ form.chars = rest ∧
          form.resource context = n) ∧
      ∀ rest (f g : Form), f.Proper → g.Proper → f.chars = rest → g.chars = rest → f = g := by
  refine ⟨⟨?_, ?_⟩, ?_⟩
  · intro h
    have hplain := plain_of_read h
    refine ⟨hplain.name, hplain.type, ?_⟩
    rw [read_eq] at h
    cases hparts : parts raw context with
    | error e =>
        rw [hparts] at h
        cases h
    | ok found =>
        obtain ⟨package, type, name⟩ := found
        obtain ⟨form, hproper, hchars, hform⟩ := exists_form_of_parts hparts
        rw [hparts] at h
        simp only at h
        split_ifs at h
        cases h
        refine ⟨dropSigil raw, form, behind_iff.2 rfl, hproper, hchars, ?_⟩
        rw [Form.resource_eq hproper, hform]
  · rintro ⟨hname, htype, rest, form, hbehind, hproper, rfl, rfl⟩
    rw [Form.resource_eq hproper] at hname htype
    have hempty : (form.parts context).2.2 ≠ [] := by simpa using hname
    rw [read_eq, parts_of_form context hproper (behind_iff.1 hbehind)]
    simp only
    rw [if_neg htype, if_neg hempty, Form.resource_eq hproper]
  · intro rest f g hf hg hchars hchars'
    exact Form.eq_of_chars_eq hf hg (hchars.trans hchars'.symm)

/-- A reference with both separators in its name, which are no part of the name in any other
form. -/
theorem read_separators_in_name :
    read "@style/a:b:c/d" .values = .ok ⟨"a", .style, "b:c/d"⟩ ∧
      ∀ form : Form, form.Proper → form.chars = "style/a:b:c/d".toList →
        form = .typeFirst .style ['a'] "b:c/d".toList := by
  have hform := read_eq_ok_iff_form "@style/a:b:c/d" .values ⟨"a", .style, "b:c/d"⟩
  have hproper : (Form.typeFirst .style ['a'] "b:c/d".toList).Proper := by decide
  have hchars : (Form.typeFirst .style ['a'] "b:c/d".toList).chars = "style/a:b:c/d".toList := by
    decide
  refine ⟨hform.1.2 ⟨by decide, by decide, _, _, ?_, hproper, hchars, by decide⟩, ?_⟩
  · decide
  · intro form hother htext
    exact hform.2 _ _ _ hother hproper htext hchars

end ResourceShards.ResourceName
