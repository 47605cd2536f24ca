import ResourceShards.Error

/-!
# ResourceShards.Resource.Density

**Screen densities.** A directory name can hold a density as one of its qualifiers: one of a few
words, or a number before `dpi`. Zero stands for no density, and two large numbers for any density
and for none.
-/

namespace ResourceShards

/-- A screen density in dots per inch; zero where none is given. -/
structure Density where
  /-- The number of dots. -/
  dots : Nat := 0
  deriving DecidableEq, Repr

namespace Density

/-- Densities are sixteen-bit numbers. -/
def bound : Nat := 65536

/-- The densities that have a word. -/
def words : List (String × Density) :=
  [("ldpi", ⟨120⟩), ("mdpi", ⟨160⟩), ("tvdpi", ⟨213⟩), ("hdpi", ⟨240⟩), ("xhdpi", ⟨320⟩),
    ("xxhdpi", ⟨480⟩), ("xxxhdpi", ⟨640⟩), ("anydpi", ⟨0xfffe⟩), ("nodpi", ⟨0xffff⟩)]

/-- Whether a density is given. -/
def isSpecified (d : Density) : Bool :=
  d.dots != 0

/-- What stands before a final `dpi`. -/
def number? (segment : String) : Option String :=
  match segment.toList.reverse with
  | 'i' :: 'p' :: 'd' :: before => some (String.ofList before.reverse)
  | _ => none

/-- The density that one qualifier gives. A qualifier of another kind gives none. -/
def ofSegment (segment : String) : Except Error Density :=
  match words.lookup segment with
  | some d => .ok d
  | none =>
    match number? segment with
    | none => .ok {}
    | some number =>
      match Decimal.read bound number with
      | .ok dots => .ok ⟨dots⟩
      | .error fault => .error (.badDensity segment fault)

/-- The first density given by qualifiers; those after it are not looked at. -/
def ofSegments : List String → Except Error Density
  | [] => .ok {}
  | segment :: rest =>
    match ofSegment segment with
    | .error e => .error e
    | .ok d => if d.isSpecified then .ok d else ofSegments rest

end Density

end ResourceShards
