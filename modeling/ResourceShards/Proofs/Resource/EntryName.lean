import ResourceShards.Proofs.Files.Ascent
import ResourceShards.Proofs.Resource.TypeDirectory

/-!
# ResourceShards.Proofs.Resource.EntryName

**Entry names are paths of the same kind of file.** The entry of a file in an archive is named by
the last three components of its path. Read as a path, this name has those components again, up to
bytes that were no text, and the last two of them tell all that is told of a file besides where it
is. So does any name in which another file of the same directory is named.

* `ResourceFile.IsShown`: what can be the name of a file that is not hidden
* `ResourceFile.entryName_eq`: the name of an entry by its parts
* `ResourceFile.same_of_ofPath`: the components of a path tell all of the file
* `ResourceFile.ReadsAlike`: a name that is read as the same kind of file
* `ResourceFile.entryName_parts`: the name of the entry, and of any other file in its place
-/

namespace ResourceShards

namespace Path

/-! ### Components as text -/

/-- A path that `IsName` has one component. -/
theorem components_of_isName {b : Bytes} (h : IsName b) :
    (⟨b⟩ : Path).components = [.name b] := by
  have hrelative : (⟨b⟩ : Path).isAbsolute = false := by
    rw [isAbsolute, beq_eq_false_iff_ne]
    intro hhead
    exact h.separator (List.mem_of_head? hhead)
  have hbody : (⟨b⟩ : Path).body = b := by
    rw [body, hrelative]
    rfl
  rw [components_eq, hrelative, hbody, List.splitOn_eq_singleton h.separator]
  simp [frontComponent, h.ne_dot, h.ofSegment?]

/-- A name decoded with `decodeLossy` `IsName` again. -/
theorem IsName.decodeLossy {b : Bytes} (h : IsName b) :
    IsName (Bytes.ofString (Utf8.decodeLossy b)) where
  ne_nil := by
    intro hnil
    refine h.ne_nil (Utf8.eq_nil_of_decodeLossy (Utf8.ofString_injective ?_))
    rw [hnil]
    rfl
  separator := by
    intro hmem
    exact slash_not_mem_decodeLossy h.separator (Utf8.mem_of_mem_ofString (by decide) hmem)
  ne_dot := by
    intro hdot
    have hascii : Utf8.IsAscii ['.'] := by decide
    refine h.ne_dot (Utf8.eq_of_decodeLossy hascii ?_)
    exact congrArg String.toList (Utf8.ofString_injective (t := ".") hdot)
  ne_dotDot := by
    intro hup
    have hascii : Utf8.IsAscii ['.', '.'] := by decide
    refine h.ne_dotDot (Utf8.eq_of_decodeLossy hascii ?_)
    exact congrArg String.toList (Utf8.ofString_injective (t := "..") hup)

/-- A component as text. -/
def Component.text (c : Component) : String :=
  Utf8.decodeLossy c.bytes

/-- The component that the text of one spells. -/
def Component.spelled : Component → Component
  | .name b => .name (Bytes.ofString (Utf8.decodeLossy b))
  | c => c

theorem Component.text_spelled (c : Component) : c.spelled.text = c.text := by
  cases c with
  | name b => exact Utf8.decodeLossy_ofString _
  | root | here | up => rfl

/-- The `text` of a component is a path of one component. -/
theorem components_text {p : Path} {c : Component} (h : c ∈ p.components) :
    (ofString c.text).components = [c.spelled] := by
  have hplain : ∀ s : String, Utf8.decodeLossy (Bytes.ofString s) = s := Utf8.decodeLossy_ofString
  cases c with
  | root =>
      rw [show Component.text .root = "/" from hplain "/"]
      decide
  | here =>
      rw [show Component.text .here = "." from hplain "."]
      decide
  | up =>
      rw [show Component.text .up = ".." from hplain ".."]
      decide
  | name b => exact components_of_isName (isName_of_mem_components h).decodeLossy

/-- A name behind a directory and a slash adds one component. -/
theorem components_slash {dir name : String} (hdir : dir ≠ "")
    (hname : IsName (Bytes.ofString name)) :
    (ofString (dir ++ "/" ++ name)).components =
      (ofString dir).components ++ [.name (Bytes.ofString name)] := by
  have hbytes : (ofString dir).bytes ≠ [] := fun hnil => hdir (Utf8.ofString_injective hnil)
  rw [← components_inside hbytes hname, ofString, Bytes.ofString_append, Bytes.ofString_append,
    List.append_assoc]
  rfl

end Path

namespace ResourceFile

/-! ### Names of files -/

/-- What can be the name of a file that is not hidden. -/
structure IsShown (name : String) : Prop where
  /-- It is not empty. -/
  ne_empty : name ≠ ""
  /-- It is one segment. -/
  slash : '/' ∉ name.toList
  /-- It does not begin with a dot. -/
  dot : name.toList.head? ≠ some '.'

theorem IsShown.not_isHidden {name : String} (h : IsShown name) :
    ¬IsHidden (Bytes.ofString name) := by
  intro hhidden
  rw [IsHidden, Utf8.ofString_eq] at hhidden
  obtain ⟨rest, hrest⟩ := List.head?_eq_some_iff.1 hhidden
  have hbegins : ['.'] <+: name.toList :=
    Utf8.prefix_of_encode (by decide) ⟨rest, hrest.symm⟩
  obtain ⟨chars, hchars⟩ := hbegins
  refine h.dot ?_
  rw [← hchars]
  rfl

theorem IsShown.isName {name : String} (h : IsShown name) :
    Path.IsName (Bytes.ofString name) where
  ne_nil := by
    intro hnil
    exact h.ne_empty (Utf8.ofString_injective hnil)
  separator := by
    intro hmem
    exact h.slash (Utf8.mem_of_mem_ofString (by decide) hmem)
  ne_dot := by
    intro hdot
    refine h.not_isHidden ?_
    rw [IsHidden, hdot]
    rfl
  ne_dotDot := by
    intro hup
    refine h.not_isHidden ?_
    rw [IsHidden, hup]
    rfl

/-- The name of a file that is not hidden `IsShown`, as text. -/
theorem isShown_decodeLossy {name : Bytes} (hname : Path.IsName name) (hshown : ¬IsHidden name) :
    IsShown (Utf8.decodeLossy name) where
  ne_empty := by
    intro hempty
    exact hname.ne_nil (Utf8.eq_nil_of_decodeLossy hempty)
  slash := Path.slash_not_mem_decodeLossy hname.separator
  dot := by
    intro hdot
    obtain ⟨chars, hchars⟩ := List.head?_eq_some_iff.1 hdot
    rw [Utf8.decodeLossy, String.toList_ofList] at hchars
    have hascii : Utf8.IsAscii ['.'] := by decide
    obtain ⟨rest, hrest, -⟩ := Utf8.exists_of_decodeLossyFrom_append hascii hchars
    refine hshown ?_
    rw [IsHidden, hrest]
    rfl

/-! ### The last two names of a path -/

/-- If `ofPath` succeeds and there is a file name, the components end with `typeDir` and that name,
which is not hidden. -/
theorem components_of_ofPath {path : Path} {file : ResourceFile} {name : Bytes}
    (h : ofPath path = .ok file) (hname : path.fileName? = some name) :
    file.path = path ∧ ¬IsHidden name ∧
      ∃ above, path.components = above ++ [.name (Bytes.ofString file.typeDir), .name name] := by
  obtain ⟨up, hfile⟩ := exists_parts h
  obtain ⟨dirs, hdirs⟩ := Path.components_of_fileName? hname
  obtain ⟨parent, hparent, hup⟩ := Path.exists_parent? hdirs Path.Component.noConfusion
  obtain rfl : parent = up := Option.some.inj (hparent.symm.trans hfile.parent)
  obtain ⟨above, habove⟩ := Path.components_of_fileName? hfile.typeDir
  refine ⟨hfile.path, ?_, above, ?_⟩
  · have hshown := hfile.shown
    rwa [hname] at hshown
  · rw [hdirs, ← hup, habove, ← List.append_cons]

/-- A file that `ofPath` makes is known by the components of its path: spellings of one path make
files that are the same in all parts. So what is stored under the components of a path is stored
under the file. -/
theorem same_of_ofPath {p q : Path} {a b : ResourceFile} (ha : ofPath p = .ok a)
    (hb : ofPath q = .ok b) (h : p.Same q) : a.Same b := by
  obtain ⟨up, hup⟩ := exists_parts ha
  obtain ⟨up', hup'⟩ := exists_parts hb
  obtain ⟨found, hfound, hsame⟩ := h.exists_parent? hup.parent
  obtain rfl : found = up' := Option.some.inj (hfound.symm.trans hup'.parent)
  have htypeDir : a.typeDir = b.typeDir := by
    have hbytes := hup.typeDir.symm.trans (hsame.fileName?_eq.trans hup'.typeDir)
    exact Utf8.ofString_injective (Option.some.inj hbytes)
  have htype : a.type = b.type := by
    have hsome := hup.type
    rw [htypeDir, hup'.type] at hsome
    exact (Option.some.inj hsome).symm
  have hqualifier : a.qualifier = b.qualifier := by
    rw [hup.qualifier, hup'.qualifier, htypeDir]
  have hdensity : a.density = b.density := by
    have hok := hup.density
    rw [hqualifier, hup'.density] at hok
    exact (Except.ok.inj hok).symm
  have hresDir : a.resDir.Same b.resDir := by
    rw [hup.resDir, hup'.resDir]
    obtain ⟨above, habove⟩ := Path.components_of_fileName? hup.typeDir
    obtain ⟨top, htop, -⟩ := Path.exists_parent? habove Path.Component.noConfusion
    obtain ⟨top', htop', hsameTop⟩ := hsame.exists_parent? htop
    rw [htop, htop']
    exact hsameTop
  refine ⟨?_, hresDir, htypeDir, htype, hqualifier, hdensity⟩
  rw [hup.path, hup'.path]
  exact h

/-- What is `told` of a file follows from the name of its directory. -/
theorem map_told_ofPath {p q : Path} {above above' : List Path.Component} {typeDir : String}
    {name name' : Bytes}
    (hp : p.components = above ++ [.name (Bytes.ofString typeDir), .name name])
    (hq : q.components = above' ++ [.name (Bytes.ofString typeDir), .name name'])
    (hname : ¬IsHidden name) (hname' : ¬IsHidden name') :
    (ofPath p).map told = (ofPath q).map told := by
  suffices htold : ∀ {path : Path} {above : List Path.Component} {name : Bytes},
      path.components = above ++ [.name (Bytes.ofString typeDir), .name name] → ¬IsHidden name →
        (ofPath path).map told =
          (typeOfHead? (headOf typeDir)).elim (.error .notResourcePath) fun type =>
            (Density.ofSegments (qualifiersOf typeDir)).map fun density =>
              (typeDir, type, "-".intercalate (qualifiersOf typeDir), density) by
    rw [htold hp hname, htold hq hname']
  intro path above name hparts hshown
  have hsplit := hparts.trans (List.append_cons _ _ _)
  obtain ⟨parent, hparent, hdir⟩ := Path.exists_parent? hsplit Path.Component.noConfusion
  obtain ⟨up, hup, -⟩ := Path.exists_parent? hdir Path.Component.noConfusion
  have hfile := Path.fileName?_of_components hsplit
  have htypeDir := Path.fileName?_of_components hdir
  rw [ofPath_eq hfile hparent htypeDir hup, if_neg hshown]
  cases typeOfHead? (headOf typeDir) with
  | none => rfl
  | some type => cases Density.ofSegments (qualifiersOf typeDir) <;> rfl

/-! ### The parts of an entry name -/

/-- What stands in front of the directory in the name of an entry. -/
def frontOf (above : List Path.Component) : String :=
  match above.getLast? with
  | none => ""
  | some c => c.text ++ "/"

theorem entryName_eq {file : ResourceFile} {above : List Path.Component} {typeDir : String}
    {name : Bytes}
    (h : file.path.components = above ++ [.name (Bytes.ofString typeDir), .name name]) :
    file.entryName = frontOf above ++ typeDir ++ "/" ++ Utf8.decodeLossy name := by
  unfold entryName frontOf
  rw [h]
  rcases List.eq_nil_or_concat above with rfl | ⟨before, c, rfl⟩
  · show Utf8.decodeLossy (Bytes.ofString typeDir) ++ "/" ++ Utf8.decodeLossy name =
      "" ++ typeDir ++ "/" ++ Utf8.decodeLossy name
    rw [Utf8.decodeLossy_ofString, String.empty_append]
  · have hlast : ((before ++ [c] ++
        [Path.Component.name (Bytes.ofString typeDir), .name name]).reverse.take 3).reverse =
          [c, .name (Bytes.ofString typeDir), .name name] := by
      simp
    simp only [List.concat_eq_append, hlast, List.getLast?_concat]
    show c.text ++ "/" ++ Utf8.decodeLossy (Bytes.ofString typeDir) ++ "/" ++ Utf8.decodeLossy name
      = c.text ++ "/" ++ typeDir ++ "/" ++ Utf8.decodeLossy name
    rw [Utf8.decodeLossy_ofString]

/-- A name of the form of an entry name is a path with the same last components. -/
theorem components_entryName {path : Path} {above : List Path.Component} {typeDir name : String}
    {file : Bytes}
    (h : path.components = above ++ [.name (Bytes.ofString typeDir), .name file])
    (hname : Path.IsName (Bytes.ofString name)) :
    ∃ front, (Path.ofString (frontOf above ++ typeDir ++ "/" ++ name)).components =
        front ++ [.name (Bytes.ofString typeDir), .name (Bytes.ofString name)] ∧
      frontOf front = frontOf above := by
  have htypeDir : Path.IsName (Bytes.ofString typeDir) := by
    refine Path.isName_of_mem_components (p := path) ?_
    rw [h]
    exact List.mem_append_right _ List.mem_cons_self
  rcases List.eq_nil_or_concat above with rfl | ⟨before, c, rfl⟩
  · refine ⟨[], ?_, rfl⟩
    have hdir : typeDir ≠ "" := fun hempty => htypeDir.ne_nil (congrArg Bytes.ofString hempty)
    show (Path.ofString ("" ++ typeDir ++ "/" ++ name)).components = _
    rw [String.empty_append, Path.components_slash hdir hname]
    exact congrArg (· ++ _) (Path.components_of_isName htypeDir)
  · rw [List.concat_eq_append] at h ⊢
    have hc : (Path.ofString c.text).components = [c.spelled] := by
      refine Path.components_text (p := path) ?_
      rw [h]
      exact List.mem_append_left _ (List.mem_append_right _ List.mem_cons_self)
    have htext : c.text ≠ "" := by
      intro hempty
      rw [hempty] at hc
      cases hc
    have hfront : frontOf (before ++ [c]) = c.text ++ "/" := by
      rw [frontOf, List.getLast?_concat]
    refine ⟨[c.spelled], ?_, ?_⟩
    · have hdir : c.text ++ "/" ++ typeDir ≠ "" := by
        intro hempty
        have hnil := congrArg Bytes.ofString hempty
        rw [Bytes.ofString_append] at hnil
        exact htypeDir.ne_nil (List.append_eq_nil_iff.1 hnil).2
      rw [hfront, Path.components_slash hdir hname, Path.components_slash htext htypeDir, hc]
      rfl
    · rw [hfront, ← c.text_spelled]
      rfl

/-! ### Reading an entry name -/

/-- A name that is read as a file of the same kind, whose entry has just this name. -/
def ReadsAlike (file : ResourceFile) (name : String) : Prop :=
  ∃ found, ofPath (.ofString name) = .ok found ∧ found.told = file.told ∧ found.entryName = name

/-- Any name that `IsShown` may stand behind the front and the directory of an entry name. -/
theorem readsAlike_of_isShown {path : Path} {file : ResourceFile} {name : String}
    {above : List Path.Component} {old : Bytes} (h : ofPath path = .ok file)
    (hparts : path.components = above ++ [.name (Bytes.ofString file.typeDir), .name old])
    (hold : ¬IsHidden old) (hname : IsShown name) :
    file.ReadsAlike (frontOf above ++ file.typeDir ++ "/" ++ name) := by
  obtain ⟨front, hcomponents, hfront⟩ := components_entryName hparts hname.isName
  have htold := map_told_ofPath hcomponents hparts hname.not_isHidden hold
  rw [h] at htold
  cases hfound : ofPath (.ofString (frontOf above ++ file.typeDir ++ "/" ++ name)) with
  | error e =>
      rw [hfound] at htold
      cases htold
  | ok found =>
      rw [hfound] at htold
      refine ⟨found, hfound, Except.ok.inj htold, ?_⟩
      have hfile := Path.fileName?_of_components (hcomponents.trans (List.append_cons _ _ _))
      obtain ⟨hpath, -, -⟩ := components_of_ofPath hfound hfile
      rw [← hpath] at hcomponents
      rw [entryName_eq hcomponents, hfront, Utf8.decodeLossy_ofString]

/-- `entryName` ends with a name that `IsShown`, and any other such name may stand there instead. -/
theorem entryName_parts {path : Path} {file : ResourceFile} (h : ofPath path = .ok file)
    (hname : path.fileName?.isSome) :
    ∃ front name, file.entryName = front ++ file.typeDir ++ "/" ++ name ∧ IsShown name ∧
      ∀ other, IsShown other → file.ReadsAlike (front ++ file.typeDir ++ "/" ++ other) := by
  obtain ⟨name, hname⟩ := Option.isSome_iff_exists.1 hname
  obtain ⟨hpath, hshown, above, hparts⟩ := components_of_ofPath h hname
  have hisName : Path.IsName name := by
    refine Path.isName_of_mem_components (p := path) ?_
    rw [hparts]
    exact List.mem_append_right _ (List.mem_cons_of_mem _ List.mem_cons_self)
  refine ⟨frontOf above, Utf8.decodeLossy name, ?_, isShown_decodeLossy hisName hshown, ?_⟩
  · rw [← hpath] at hparts
    exact entryName_eq hparts
  · intro other hother
    exact readsAlike_of_isShown h hparts hshown hother

end ResourceFile

end ResourceShards
