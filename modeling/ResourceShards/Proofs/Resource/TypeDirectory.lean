import ResourceShards.Proofs.Files.Path
import ResourceShards.Proofs.Resource.Density
import ResourceShards.Proofs.Resource.FullForm
import ResourceShards.Proofs.Text.Utf8
import ResourceShards.Resource.File

/-!
# ResourceShards.Proofs.Resource.TypeDirectory

**What a type directory tells.** Of the path of a file three things are looked at: whether the file
is hidden, what the name of its directory is, and which directory that one is in. The dashes in the
directory's name divide it into a type and qualifiers. Everything but the path itself and the
directory above follows from the last two names, wherever they stand.

* `ResourceFile.headOf`, `ResourceFile.qualifiersOf`: the parts of a directory's name
* `ResourceFile.ofPath_inside`: what a path tells, as one equation
* `ResourceFile.ofPath_inside_iff`: when it is hidden, foreign or has a bad density, and what it
  tells otherwise
-/

namespace ResourceShards

namespace ResourceFile

/-! ### The parts of a directory's name -/

/-- The parts of a text between its dashes. -/
def dashed (text : String) : List String :=
  (text.toList.splitOn '-').map String.ofList

/-- What stands before the first dash of a directory's name. -/
def headOf (typeDir : String) : String :=
  (dashed typeDir).headD ""

/-- What stands between and after the dashes of a directory's name. -/
def qualifiersOf (typeDir : String) : List String :=
  (dashed typeDir).tail

theorem segments_eq (text : List Char) : segments text = (text.splitOn '-').map String.ofList := by
  fun_induction segments text with
  | case1 text hcut =>
      rw [List.splitOn_eq_singleton (ResourceName.cut_eq_none hcut)]
      rfl
  | case2 text segment rest hcut ih =>
      obtain ⟨hchars, hsegment⟩ := ResourceName.cut_eq_some hcut
      rw [hchars, List.splitOn_append_cons_self_of_not_mem hsegment, ih]
      rfl

/-- `splitTypeDir` gives `headOf` and the `qualifiersOf` as one text. A directory without any has an
empty text of them, which gives no density either. -/
theorem splitTypeDir_eq (typeDir : String) :
    splitTypeDir typeDir = (headOf typeDir, "-".intercalate (qualifiersOf typeDir)) ∧
      Density.ofSegments (segments ("-".intercalate (qualifiersOf typeDir)).toList) =
        Density.ofSegments (qualifiersOf typeDir) := by
  unfold splitTypeDir headOf qualifiersOf dashed
  cases hcut : ResourceName.cut '-' typeDir.toList with
  | none =>
      have hnone := ResourceName.cut_eq_none hcut
      rw [List.splitOn_eq_singleton hnone]
      refine ⟨by simp, ?_⟩
      rw [segments_eq]
      rfl
  | some parts =>
      obtain ⟨head, rest⟩ := parts
      obtain ⟨hchars, hhead⟩ := ResourceName.cut_eq_some hcut
      have hrest : "-".intercalate ((rest.splitOn '-').map String.ofList) = String.ofList rest := by
        have hpieces : ((rest.splitOn '-').map String.ofList).map String.toList =
            rest.splitOn '-' := by
          simp [Function.comp_def]
        apply String.toList_injective
        have hdash : "-".toList = ['-'] := rfl
        rw [String.toList_intercalate, hpieces, hdash, List.intercalate_splitOn,
          String.toList_ofList]
      rw [hchars, List.splitOn_append_cons_self_of_not_mem hhead]
      simp only [List.map_cons, List.headD_cons, List.tail_cons, hrest]
      refine ⟨trivial, ?_⟩
      rw [String.toList_ofList, segments_eq]

theorem typeOfHead?_eq_some_iff {head : String} {type : ResourceType} :
    typeOfHead? head = some type ↔ type.name = head := by
  unfold typeOfHead?
  by_cases hvalues : head = ResourceType.values.name
  · rw [if_pos (beq_iff_eq.2 hvalues), Option.some.injEq, hvalues]
    constructor
    · rintro rfl
      rfl
    · intro hname
      exact (ResourceType.name_injective hname).symm
  · rw [if_neg (mt beq_iff_eq.1 hvalues), ResourceType.ofName?_eq_some_iff]
    constructor
    · exact And.right
    · intro hname
      refine ⟨?_, hname⟩
      rintro rfl
      exact hvalues hname.symm

/-! ### What a path tells -/

/-- A hidden file. -/
def IsHidden (name : Bytes) : Prop :=
  name.head? = some 0x2e

instance (name : Bytes) : Decidable (IsHidden name) :=
  inferInstanceAs (Decidable (_ = _))

/-- `ofPath` of a path that has the name of a file behind that of a directory, as one equation. -/
theorem ofPath_eq {path parent above : Path} {typeDir : String} {name : Bytes}
    (hname : path.fileName? = some name) (hparent : path.parent? = some parent)
    (htypeDir : parent.fileName? = some (Bytes.ofString typeDir))
    (habove : parent.parent? = some above) :
    ofPath path =
      if IsHidden name then .error .hiddenFile
      else
        match typeOfHead? (headOf typeDir) with
        | none => .error .notResourcePath
        | some type =>
          match Density.ofSegments (qualifiersOf typeDir) with
          | .error e => .error e
          | .ok density =>
            .ok ⟨path, above, typeDir, type, "-".intercalate (qualifiersOf typeDir), density⟩ := by
  obtain ⟨hsplit, hqualifiers⟩ := splitTypeDir_eq typeDir
  simp only [ofPath, hname, hparent, htypeDir, habove, Bytes.toString?_ofString, hsplit,
    hqualifiers, Option.getD_some]
  by_cases hhidden : IsHidden name
  · rw [if_pos hhidden, if_pos (beq_iff_eq.2 hhidden)]
    rfl
  · rw [if_neg hhidden, if_neg (mt beq_iff_eq.1 hhidden)]
    cases typeOfHead? (headOf typeDir) with
    | none => rfl
    | some type => cases Density.ofSegments (qualifiersOf typeDir) <;> rfl

/-- What `ofPath` makes of a path that it accepts, part by part. -/
structure Parts (p up : Path) (file : ResourceFile) : Prop where
  /-- The path is kept. -/
  path : file.path = p
  /-- The file is not hidden. -/
  shown : ¬IsHidden (p.fileName?.getD [])
  /-- The directory of the file. -/
  parent : p.parent? = some up
  /-- Its name. -/
  typeDir : up.fileName? = some (Bytes.ofString file.typeDir)
  /-- The directory above. -/
  resDir : file.resDir = up.parent?.getD ⟨[]⟩
  /-- The type is the beginning of that name. -/
  type : typeOfHead? (splitTypeDir file.typeDir).1 = some file.type
  /-- The qualifiers are what follows. -/
  qualifier : file.qualifier = (splitTypeDir file.typeDir).2
  /-- The density is one of them. -/
  density : Density.ofSegments (segments file.qualifier.toList) = .ok file.density

theorem exists_parts {path : Path} {file : ResourceFile} (h : ofPath path = .ok file) :
    ∃ up, Parts path up file := by
  cases hparent : path.parent? with
  | none =>
      simp only [ofPath, hparent] at h
      split at h <;> cases h
  | some parent =>
      cases hbytes : parent.fileName? with
      | none =>
          simp only [ofPath, hparent, hbytes] at h
          split at h <;> cases h
      | some bytes =>
          cases htext : Bytes.toString? bytes with
          | none =>
              simp only [ofPath, hparent, hbytes, htext] at h
              split at h <;> cases h
          | some typeDir =>
              cases htype : typeOfHead? (splitTypeDir typeDir).1 with
              | none =>
                  simp only [ofPath, hparent, hbytes, htext, htype] at h
                  split at h <;> cases h
              | some type =>
                  simp only [ofPath, hparent, hbytes, htext, htype] at h
                  split at h
                  · cases h
                  · rename_i hshown
                    cases hdensity : Density.ofSegments
                        (segments (splitTypeDir typeDir).2.toList) with
                    | error e =>
                        simp only [hdensity] at h
                        cases h
                    | ok density =>
                        simp only [hdensity] at h
                        cases h
                        rw [Bytes.eq_ofString_of_toString? htext] at hbytes
                        exact ⟨parent, rfl, mt beq_iff_eq.2 hshown, hparent, hbytes, rfl, htype,
                          rfl, hdensity⟩

/-- The path of a file in a type directory in some directory. -/
def pathIn (dir : Path) (typeDir : String) (name : Bytes) : Path :=
  (dir.inside (Bytes.ofString typeDir)).inside name

/-- `ofPath` of a file in a type directory, as one equation. -/
theorem ofPath_inside {dir : Path} {typeDir : String} {name : Bytes} (hdir : dir.bytes ≠ [])
    (htypeDir : Path.IsName (Bytes.ofString typeDir)) (hname : Path.IsName name) :
    ofPath (pathIn dir typeDir name) =
      if IsHidden name then .error .hiddenFile
      else
        match typeOfHead? (headOf typeDir) with
        | none => .error .notResourcePath
        | some type =>
          match Density.ofSegments (qualifiersOf typeDir) with
          | .error e => .error e
          | .ok density =>
            .ok ⟨pathIn dir typeDir name, dir.trimmed, typeDir, type,
              "-".intercalate (qualifiersOf typeDir), density⟩ := by
  obtain ⟨hparent, habove⟩ := Path.parent?_parent?_inside hdir htypeDir hname
  have hne : (dir.inside (Bytes.ofString typeDir)).bytes ≠ [] :=
    List.append_ne_nil_of_right_ne_nil _ (List.cons_ne_nil _ _)
  exact ofPath_eq (Path.fileName?_inside hne hname) hparent (Path.fileName?_inside hdir htypeDir)
    habove

/-- `ofPath` of a file in a type directory has four outcomes. Which one it is, and what is found,
does not depend on where the type directory is. -/
theorem ofPath_inside_cases {typeDir : String} {name : Bytes}
    (htypeDir : Path.IsName (Bytes.ofString typeDir)) (hname : Path.IsName name) :
    (IsHidden name ∧
        ∀ dir : Path, dir.bytes ≠ [] → ofPath (pathIn dir typeDir name) = .error .hiddenFile) ∨
      (¬IsHidden name ∧ (∀ type : ResourceType, type.name ≠ headOf typeDir) ∧
        ∀ dir : Path, dir.bytes ≠ [] →
          ofPath (pathIn dir typeDir name) = .error .notResourcePath) ∨
      (¬IsHidden name ∧ (∃ type : ResourceType, type.name = headOf typeDir) ∧
        Density.Misgiven (qualifiersOf typeDir) ∧
        ∃ segment fault, ∀ dir : Path, dir.bytes ≠ [] →
          ofPath (pathIn dir typeDir name) = .error (.badDensity segment fault)) ∨
      (¬IsHidden name ∧ ¬Density.Misgiven (qualifiersOf typeDir) ∧
        ∃ type density, type.name = headOf typeDir ∧
          Density.FirstGiven (qualifiersOf typeDir) density ∧
          ∀ dir : Path, dir.bytes ≠ [] →
            ofPath (pathIn dir typeDir name) =
              .ok ⟨pathIn dir typeDir name, dir.trimmed, typeDir, type,
                "-".intercalate (qualifiersOf typeDir), density⟩) := by
  have heq := fun (dir : Path) (h : dir.bytes ≠ []) => ofPath_inside h htypeDir hname
  by_cases hhidden : IsHidden name
  · refine .inl ⟨hhidden, ?_⟩
    intro dir hdir
    rw [heq dir hdir, if_pos hhidden]
  cases htype : typeOfHead? (headOf typeDir) with
  | none =>
      refine .inr (.inl ⟨hhidden, ?_, ?_⟩)
      · intro type hhead
        rw [typeOfHead?_eq_some_iff.2 hhead] at htype
        cases htype
      · intro dir hdir
        rw [heq dir hdir, if_neg hhidden, htype]
  | some type =>
      have hhead := typeOfHead?_eq_some_iff.1 htype
      rcases Density.ofSegments_cases (qualifiersOf typeDir) with
        ⟨hmis, segment, -, -, fault, hsegments⟩ | ⟨hmis, density, hsegments, hfirst⟩
      · refine .inr (.inr (.inl ⟨hhidden, ⟨type, hhead⟩, hmis, segment, fault, ?_⟩))
        intro dir hdir
        rw [heq dir hdir, if_neg hhidden, htype, hsegments]
      · refine .inr (.inr (.inr ⟨hhidden, hmis, type, density, hhead, hfirst, ?_⟩))
        intro dir hdir
        rw [heq dir hdir, if_neg hhidden, htype, hsegments]

/-- What a file in a type directory of some directory is told to be. -/
structure Tells (dir : Path) (dirName : String) (name : Bytes) (type : ResourceType)
    (file : ResourceFile) : Prop where
  /-- The path is kept. -/
  path : file.path = pathIn dir dirName name
  /-- The directory above is found, perhaps in another spelling. -/
  resDir : file.resDir.Same dir
  /-- The name of the type directory is kept. -/
  typeDir : file.typeDir = dirName
  /-- The type is the one that the name begins with. -/
  type : file.type = type
  /-- The qualifiers are all that follows the first dash. -/
  qualifier : file.qualifier = "-".intercalate (qualifiersOf dirName)
  /-- The density is that of the first qualifier that gives one. -/
  density : Density.FirstGiven (qualifiersOf dirName) file.density

/-- What is told of a file apart from where it is. -/
def told (file : ResourceFile) : String × ResourceType × String × Density :=
  (file.typeDir, file.type, file.qualifier, file.density)

/-- **What a path tells.** `ofPath` refuses a file in a type directory as hidden if its name begins
with a dot, otherwise as foreign if the name of the directory does not begin with a type, otherwise
for its density if the qualifiers are `Misgiven`: one with a bad number comes before all that give
one. In all other cases it `Tells` the parts of the directory's name. Nothing of this depends on
where the directory is. -/
theorem ofPath_inside_iff {dir : Path} {typeDir : String} {name : Bytes} (hdir : dir.bytes ≠ [])
    (htypeDir : Path.IsName (Bytes.ofString typeDir)) (hname : Path.IsName name) :
    (ofPath (pathIn dir typeDir name) = .error .hiddenFile ↔ IsHidden name) ∧
      (ofPath (pathIn dir typeDir name) = .error .notResourcePath ↔
        ¬IsHidden name ∧ ∀ type : ResourceType, type.name ≠ headOf typeDir) ∧
      ((∃ segment fault, ofPath (pathIn dir typeDir name) = .error (.badDensity segment fault)) ↔
        ¬IsHidden name ∧ (∃ type : ResourceType, type.name = headOf typeDir) ∧
          Density.Misgiven (qualifiersOf typeDir)) ∧
      (∀ type : ResourceType, ¬IsHidden name → type.name = headOf typeDir →
        ¬Density.Misgiven (qualifiersOf typeDir) →
          ∃ file, ofPath (pathIn dir typeDir name) = .ok file ∧ Tells dir typeDir name type file) ∧
      ∀ dir' : Path, dir'.bytes ≠ [] →
        (ofPath (pathIn dir' typeDir name)).map told =
          (ofPath (pathIn dir typeDir name)).map told := by
  rcases ofPath_inside_cases htypeDir hname with ⟨hhidden, heq⟩ | ⟨hhidden, hforeign, heq⟩ |
    ⟨hhidden, ⟨type, hhead⟩, hmis, segment, fault, heq⟩ |
    ⟨hhidden, hmis, type, density, hhead, hfirst, heq⟩
  · rw [heq dir hdir]
    refine ⟨by simp [hhidden], by simp [hhidden], by simp [hhidden], ?_, ?_⟩
    · intro type hshown
      exact absurd hhidden hshown
    · intro dir' hdir'
      rw [heq dir' hdir']
  · rw [heq dir hdir]
    refine ⟨by simp [hhidden], by simp [hhidden, hforeign], by simp [hforeign], ?_, ?_⟩
    · intro type _ hhead
      exact absurd hhead (hforeign type)
    · intro dir' hdir'
      rw [heq dir' hdir']
  · rw [heq dir hdir]
    refine ⟨by simp [hhidden], ?_, ?_, ?_, ?_⟩
    · simp only [Except.error.injEq, reduceCtorEq, false_iff]
      rintro ⟨-, hforeign⟩
      exact hforeign type hhead
    · exact ⟨fun _ => ⟨hhidden, ⟨type, hhead⟩, hmis⟩, fun _ => ⟨segment, fault, rfl⟩⟩
    · intro type' _ _ hgood
      exact absurd hmis hgood
    · intro dir' hdir'
      rw [heq dir' hdir']
  · rw [heq dir hdir]
    refine ⟨by simp [hhidden], ?_, by simp [hmis], ?_, ?_⟩
    · simp only [reduceCtorEq, false_iff]
      rintro ⟨-, hforeign⟩
      exact hforeign type hhead
    · intro type' _ hhead' _
      obtain rfl := ResourceType.name_injective (hhead.trans hhead'.symm)
      exact ⟨_, rfl, rfl, Path.components_trimmed dir, rfl, rfl, rfl, hfirst⟩
    · intro dir' hdir'
      rw [heq dir' hdir']
      rfl

/-- A directory with a density that counts, one before it that is zero and a bad one after it, in a
directory that is spelled with more than its names. -/
theorem ofPath_inside_zeroFirst :
    let dir := Path.ofString "/app//res/."
    let typeDir := "drawable-0dpi-xhdpi-fancydpi"
    let name := Bytes.ofString "icon.9.png"
    dir.bytes ≠ [] ∧ Path.IsName (Bytes.ofString typeDir) ∧ Path.IsName name ∧ ¬IsHidden name ∧
      ResourceType.drawable.name = headOf typeDir ∧
      ¬Density.Misgiven (qualifiersOf typeDir) ∧
      ∃ file, ofPath (pathIn dir typeDir name) = .ok file ∧
        Tells dir typeDir name .drawable file := by
  intro dir typeDir name
  have hdir : dir.bytes ≠ [] := by decide
  have htypeDir : Path.IsName (Bytes.ofString typeDir) := by decide
  have hname : Path.IsName name := by decide
  have hshown : ¬IsHidden name := by decide
  have hhead : ResourceType.drawable.name = headOf typeDir := by decide
  have hmis : ¬Density.Misgiven (qualifiersOf typeDir) := by
    have hok : Density.ofSegments (qualifiersOf typeDir) = .ok ⟨320⟩ := by decide
    rcases Density.ofSegments_cases (qualifiersOf typeDir) with
      ⟨-, segment, -, -, fault, herror⟩ | ⟨hmis, -⟩
    · rw [hok] at herror
      cases herror
    · exact hmis
  obtain ⟨-, -, -, hclassified, -⟩ := ofPath_inside_iff hdir htypeDir hname
  exact ⟨hdir, htypeDir, hname, hshown, hhead, hmis,
    hclassified .drawable hshown hhead hmis⟩

end ResourceFile

end ResourceShards
