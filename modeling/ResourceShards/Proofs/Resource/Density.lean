import ResourceShards.Resource.Density

/-!
# ResourceShards.Proofs.Resource.Density

**Densities among qualifiers.** A reader goes through the qualifiers of a directory from left to
right, and stops at the first that gives a density other than zero, or that pretends to and has no
number for it. What it finds is said here without going through them: which texts spell a number,
what a single qualifier gives, and which qualifier of a list counts.

* `Decimal.read_eq_ok_iff`: which texts are numbers below a bound
* `Density.specifies_iff`, `Density.malformed_iff`: what one qualifier gives
* `Density.ofSegments_cases`: which qualifier of a list counts
-/

namespace ResourceShards

/-! ### Numbers -/

namespace Decimal

/-- The number that digits stand for after a number, the most significant digit first. -/
def valueAfter (value : Nat) (digits : List Char) : Nat :=
  digits.foldl (fun value c => 10 * value + (c.toNat - '0'.toNat)) value

/-- Texts that spell a number: one digit or more, with a plus sign in front or without. -/
def Spells (text : String) (n : Nat) : Prop :=
  ∃ digits : List Char, (text.toList = digits ∨ text.toList = '+' :: digits) ∧ digits ≠ [] ∧
    (∀ c ∈ digits, c.isDigit = true) ∧ valueAfter 0 digits = n

theorem valueAfter_cons (value : Nat) (c : Char) (digits : List Char) :
    valueAfter value (c :: digits) = valueAfter (10 * value + (c.toNat - '0'.toNat)) digits := by
  rw [valueAfter, List.foldl_cons, valueAfter]

theorem le_valueAfter (value : Nat) (digits : List Char) : value ≤ valueAfter value digits := by
  induction digits generalizing value with
  | nil => exact Nat.le_refl _
  | cons c digits ih =>
      rw [valueAfter_cons]
      have hrest := ih (10 * value + (c.toNat - '0'.toNat))
      omega

/-- `digits` fails for a character that is no digit and for a number from `bound` on. The number
never gets smaller on the way, so a bound kept at the end was kept all the time. -/
theorem digits_eq_ok_iff {bound value n : Nat} {chars : List Char} (hvalue : value < bound) :
    digits bound value chars = .ok n ↔
      (∀ c ∈ chars, c.isDigit = true) ∧ valueAfter value chars = n ∧ n < bound := by
  induction chars generalizing value with
  | nil =>
      simp only [digits, Except.ok.injEq, List.not_mem_nil, false_implies, implies_true, true_and]
      constructor
      · rintro rfl
        exact ⟨rfl, hvalue⟩
      · rintro ⟨rfl, -⟩
        rfl
  | cons c chars ih =>
      rw [digits, digit?, valueAfter_cons, List.forall_mem_cons]
      by_cases hdigit : c.isDigit = true
      · rw [if_pos hdigit]
        simp only [hdigit, true_and]
        by_cases hlt : 10 * value + (c.toNat - '0'.toNat) < bound
        · rw [if_pos hlt]
          exact ih hlt
        · rw [if_neg hlt]
          refine ⟨fun h => (by cases h), ?_⟩
          rintro ⟨-, rfl, hbound⟩
          have hle := le_valueAfter (10 * value + (c.toNat - '0'.toNat)) chars
          omega
      · simp only [if_neg hdigit, reduceCtorEq, false_iff]
        rintro ⟨⟨h, -⟩, -⟩
        exact hdigit h

/-- `read` gives the number that a text `Spells`, if that is below the bound. -/
theorem read_eq_ok_iff {bound n : Nat} {text : String} (hbound : 0 < bound) :
    read bound text = .ok n ↔ Spells text n ∧ n < bound := by
  have hplus : ('+' : Char).isDigit ≠ true := by decide
  unfold read Spells
  split
  · rename_i htext
    rw [htext]
    simp
  · rename_i htext
    rw [htext]
    refine ⟨fun h => (by cases h), ?_⟩
    rintro ⟨⟨digits, htext | htext, hne, hdigits, -⟩, -⟩
    · subst htext
      exact absurd (hdigits '+' List.mem_cons_self) hplus
    · exact absurd (List.cons.inj htext).2.symm hne
  · rename_i rest hne htext
    rw [digits_eq_ok_iff hbound, htext]
    constructor
    · rintro ⟨hdigits, hvalue, hlt⟩
      exact ⟨⟨rest, .inr rfl, hne, hdigits, hvalue⟩, hlt⟩
    · rintro ⟨⟨digits, heq | heq, -, hdigits, hvalue⟩, hlt⟩
      · subst heq
        exact absurd (hdigits '+' List.mem_cons_self) hplus
      · obtain rfl := (List.cons.inj heq).2
        exact ⟨hdigits, hvalue, hlt⟩
  · rename_i hempty hsign hplain
    rw [digits_eq_ok_iff hbound]
    constructor
    · rintro ⟨hdigits, hvalue, hlt⟩
      exact ⟨⟨text.toList, .inl rfl, hempty, hdigits, hvalue⟩, hlt⟩
    · rintro ⟨⟨digits, heq | heq, -, hdigits, hvalue⟩, hlt⟩
      · subst heq
        exact ⟨hdigits, hvalue, hlt⟩
      · exact absurd heq (hplain digits)

end Decimal

/-! ### One qualifier -/

namespace Density

/-- A qualifier that gives a density other than zero: a word for it, or a sixteen-bit number of dots
before `dpi`. -/
def Specifies (segment : String) (d : Density) : Prop :=
  d ≠ {} ∧ (words.lookup segment = some d ∨
    words.lookup segment = none ∧ ∃ number, segment = number ++ "dpi" ∧
      Decimal.Spells number d.dots ∧ d.dots < bound)

/-- A qualifier that ends in `dpi`, but is no word for a density and has no sixteen-bit number
before the `dpi`. -/
def Malformed (segment : String) : Prop :=
  words.lookup segment = none ∧ ∃ number, segment = number ++ "dpi" ∧
    ∀ n, Decimal.Spells number n → ¬n < bound

theorem number?_eq_some_iff {segment number : String} :
    number? segment = some number ↔ segment = number ++ "dpi" := by
  unfold number?
  constructor
  · intro h
    split at h
    · rename_i before hreverse
      obtain rfl := Option.some.inj h
      have hchars := congrArg List.reverse hreverse
      rw [List.reverse_reverse] at hchars
      apply String.toList_injective
      rw [hchars, String.toList_append, String.toList_ofList]
      simp
    · cases h
  · rintro rfl
    have hreverse : (number ++ "dpi").toList.reverse =
        'i' :: 'p' :: 'd' :: number.toList.reverse := by
      simp
    rw [hreverse]
    simp

theorem ofSegment_of_lookup {segment : String} {d : Density} (h : words.lookup segment = some d) :
    ofSegment segment = .ok d := by
  rw [ofSegment, h]

theorem ofSegment_of_number {number : String} (h : words.lookup (number ++ "dpi") = none) :
    ofSegment (number ++ "dpi") =
      match Decimal.read bound number with
      | .ok dots => .ok ⟨dots⟩
      | .error fault => .error (.badDensity (number ++ "dpi") fault) := by
  have hnumber : number? (number ++ "dpi") = some number := number?_eq_some_iff.2 rfl
  cases hread : Decimal.read bound number with
  | ok dots => simp [ofSegment, h, hnumber, hread]
  | error fault => simp [ofSegment, h, hnumber, hread]

theorem ofSegment_of_other {segment : String} (hword : words.lookup segment = none)
    (hnumber : number? segment = none) : ofSegment segment = .ok {} := by
  rw [ofSegment, hword, hnumber]

/-- A qualifier is a word, ends in `dpi`, or is of another kind. -/
theorem segment_cases (segment : String) :
    (∃ d, words.lookup segment = some d) ∨
      words.lookup segment = none ∧
        ((∃ number, segment = number ++ "dpi") ∨ number? segment = none) := by
  cases hword : words.lookup segment with
  | some d => exact .inl ⟨d, rfl⟩
  | none =>
      refine .inr ⟨rfl, ?_⟩
      cases hnumber : number? segment with
      | none => exact .inr rfl
      | some number => exact .inl ⟨number, number?_eq_some_iff.1 hnumber⟩

theorem specifies_iff {segment : String} {d : Density} :
    Specifies segment d ↔ d ≠ {} ∧ ofSegment segment = .ok d := by
  constructor
  · rintro ⟨hne, hword | ⟨hnone, number, rfl, hspells, hlt⟩⟩
    · exact ⟨hne, ofSegment_of_lookup hword⟩
    · refine ⟨hne, ?_⟩
      rw [ofSegment_of_number hnone, (Decimal.read_eq_ok_iff (by decide)).2 ⟨hspells, hlt⟩]
  · rintro ⟨hne, hok⟩
    refine ⟨hne, ?_⟩
    rcases segment_cases segment with ⟨d', hword⟩ | ⟨hnone, ⟨number, rfl⟩ | hother⟩
    · rw [ofSegment_of_lookup hword] at hok
      exact .inl (Except.ok.inj hok ▸ hword)
    · rw [ofSegment_of_number hnone] at hok
      cases hread : Decimal.read bound number with
      | error fault =>
          rw [hread] at hok
          cases hok
      | ok n =>
          rw [hread] at hok
          obtain rfl := Except.ok.inj hok
          exact .inr ⟨hnone, number, rfl, (Decimal.read_eq_ok_iff (by decide)).1 hread⟩
    · rw [ofSegment_of_other hnone hother] at hok
      exact absurd (Except.ok.inj hok).symm hne

theorem malformed_iff {segment : String} :
    Malformed segment ↔ ∃ fault, ofSegment segment = .error (.badDensity segment fault) := by
  constructor
  · rintro ⟨hnone, number, rfl, hno⟩
    rw [ofSegment_of_number hnone]
    cases hread : Decimal.read bound number with
    | error fault => exact ⟨fault, rfl⟩
    | ok n =>
        obtain ⟨hspells, hlt⟩ := (Decimal.read_eq_ok_iff (by decide)).1 hread
        exact absurd hlt (hno n hspells)
  · rintro ⟨fault, herror⟩
    rcases segment_cases segment with ⟨d, hword⟩ | ⟨hnone, ⟨number, rfl⟩ | hother⟩
    · rw [ofSegment_of_lookup hword] at herror
      cases herror
    · refine ⟨hnone, number, rfl, ?_⟩
      intro n hspells hlt
      have hread := (Decimal.read_eq_ok_iff (by decide)).2 ⟨hspells, hlt⟩
      rw [ofSegment_of_number hnone, hread] at herror
      cases herror
    · rw [ofSegment_of_other hnone hother] at herror
      cases herror

/-- A failure of `ofSegment` names the segment. -/
theorem exists_fault_of_ofSegment {segment : String} {e : Error}
    (h : ofSegment segment = .error e) : ∃ fault, e = .badDensity segment fault := by
  unfold ofSegment at h
  split at h
  · cases h
  · split at h
    · cases h
    · split at h
      · cases h
      · cases h
        exact ⟨_, rfl⟩

/-! ### All qualifiers -/

/-- Some qualifier has a bad number, and none before it gives a density. -/
def Misgiven (segments : List String) : Prop :=
  ∃ before segment after, segments = before ++ segment :: after ∧ Malformed segment ∧
    ∀ other ∈ before, ∀ d, ¬Specifies other d

/-- The density that the first qualifier gives which gives one, or none. -/
def FirstGiven (segments : List String) (d : Density) : Prop :=
  (∃ before segment after, segments = before ++ segment :: after ∧ Specifies segment d ∧
    ∀ other ∈ before, ∀ d', ¬Specifies other d') ∨
  d = {} ∧ ∀ other ∈ segments, ∀ d', ¬Specifies other d'

theorem misgiven_cons {segment : String} {rest : List String} :
    Misgiven (segment :: rest) ↔
      Malformed segment ∨ (∀ d, ¬Specifies segment d) ∧ Misgiven rest := by
  constructor
  · rintro ⟨before, bad, after, heq, hbad, hbefore⟩
    cases before with
    | nil =>
        obtain ⟨rfl, -⟩ := List.cons.inj heq
        exact .inl hbad
    | cons first before =>
        obtain ⟨rfl, hrest⟩ := List.cons.inj heq
        rw [List.forall_mem_cons] at hbefore
        exact .inr ⟨hbefore.1, before, bad, after, hrest, hbad, hbefore.2⟩
  · rintro (hbad | ⟨hnone, before, bad, after, rfl, hbad, hbefore⟩)
    · exact ⟨[], segment, rest, rfl, hbad, fun other h => absurd h List.not_mem_nil⟩
    · exact ⟨segment :: before, bad, after, rfl, hbad, List.forall_mem_cons.2 ⟨hnone, hbefore⟩⟩

theorem FirstGiven.cons {segment : String} {rest : List String} {d : Density}
    (hnone : ∀ d', ¬Specifies segment d') (h : FirstGiven rest d) :
    FirstGiven (segment :: rest) d := by
  rcases h with ⟨before, found, after, rfl, hfound, hbefore⟩ | ⟨rfl, hrest⟩
  · exact .inl ⟨segment :: before, found, after, rfl, hfound,
      List.forall_mem_cons.2 ⟨hnone, hbefore⟩⟩
  · exact .inr ⟨rfl, List.forall_mem_cons.2 ⟨hnone, hrest⟩⟩

/-- `ofSegments` fails exactly if the segments are `Misgiven`; otherwise it gives the density that
is `FirstGiven`. -/
theorem ofSegments_cases (segments : List String) :
    (Misgiven segments ∧ ∃ segment ∈ segments, Malformed segment ∧
        ∃ fault, ofSegments segments = .error (.badDensity segment fault)) ∨
      (¬Misgiven segments ∧ ∃ d, ofSegments segments = .ok d ∧ FirstGiven segments d) := by
  induction segments with
  | nil =>
      refine .inr ⟨?_, {}, rfl, .inr ⟨rfl, fun other h => absurd h List.not_mem_nil⟩⟩
      rintro ⟨before, bad, after, heq, -⟩
      exact absurd heq (List.append_ne_nil_of_right_ne_nil _ (List.cons_ne_nil _ _)).symm
  | cons segment rest ih =>
      rw [misgiven_cons, ofSegments]
      cases hsegment : ofSegment segment with
      | error e =>
          obtain ⟨fault, rfl⟩ := exists_fault_of_ofSegment hsegment
          have hbad := malformed_iff.2 ⟨fault, hsegment⟩
          exact .inl ⟨.inl hbad, segment, List.mem_cons_self, hbad, fault, rfl⟩
      | ok d =>
          have hgood : ¬Malformed segment := by
            intro hbad
            obtain ⟨fault, herror⟩ := malformed_iff.1 hbad
            rw [hsegment] at herror
            cases herror
          by_cases hzero : d = {}
          · have hnone : ∀ d', ¬Specifies segment d' := by
              intro d' hd'
              obtain ⟨hne, hok⟩ := specifies_iff.1 hd'
              rw [hsegment] at hok
              exact hne ((Except.ok.inj hok).symm.trans hzero)
            subst hzero
            rcases ih with ⟨hmis, other, hother, hbad, hfault⟩ | ⟨hmis, d', hok, hfirst⟩
            · exact .inl ⟨.inr ⟨hnone, hmis⟩, other, List.mem_cons_of_mem _ hother, hbad, hfault⟩
            · refine .inr ⟨?_, d', hok, hfirst.cons hnone⟩
              rintro (hbad | ⟨-, hmis'⟩)
              · exact hgood hbad
              · exact hmis hmis'
          · have hd : Specifies segment d := specifies_iff.2 ⟨hzero, hsegment⟩
            have hspecified : d.isSpecified = true := by
              rw [isSpecified, bne_iff_ne]
              intro hdots
              exact hzero (congrArg Density.mk hdots)
            refine .inr ⟨?_, d, if_pos hspecified, .inl ⟨[], segment, rest, rfl, hd, ?_⟩⟩
            · rintro (hbad | ⟨hnone, -⟩)
              · exact hgood hbad
              · exact hnone d hd
            · exact fun other h => absurd h List.not_mem_nil

end Density

end ResourceShards
