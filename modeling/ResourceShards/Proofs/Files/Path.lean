import Mathlib.Data.List.Infix
import ResourceShards.Files.Path
import ResourceShards.Proofs.Text.Utf8

/-!
# ResourceShards.Proofs.Files.Path

**What stands inside a directory.** A path may be spelled in many ways, with doubled separators,
with `.` in the middle and with separators at the end, and going up keeps the spelling of what
remains. A file inside a directory is spelled by the directory, one separator and a name. Then the
name is the last component, and going up leads to the directory: to the same path, though not always
to the same spelling, since what stands for nothing at the end of it is dropped.

* `Path.not_mem_fileName?`: the name of a file has no separator
* `Path.IsName`: what can be the name of a file or of a directory
* `Path.inside`: the path of something inside a directory
* `Path.components_inside`, `Path.parent?_inside`: its components, and the way up from it
* `Path.components_trimmed`: what is dropped on the way up stands for nothing
-/

namespace ResourceShards

/-! ### Pieces between separators -/

/-- `splitAll` is the library's `splitOn`. -/
theorem Bytes.splitAll_eq_splitOn (sep : UInt8) (bytes : Bytes) :
    splitAll sep bytes = bytes.splitOn sep := by
  -- at any place some pieces are done, and the next one is begun
  suffices hplace : ∀ (bytes piece : Bytes) (done : List Bytes),
      let split := bytes.foldl (fun (piece, done) b =>
        if b == sep then ([], piece.reverse :: done) else (b :: piece, done)) (piece, done)
      (split.1.reverse :: split.2).reverse =
        done.reverse ++ List.splitOnPPrepend (· == sep) bytes piece from
    hplace bytes [] []
  intro bytes
  induction bytes with
  | nil =>
      intro piece done
      simp
  | cons b bytes ih =>
      intro piece done
      rw [List.foldl_cons, List.splitOnPPrepend_cons_eq_if]
      by_cases hb : (b == sep) = true
      · have hdone := ih [] (piece.reverse :: done)
        simp only [if_pos hb]
        simpa using hdone
      · have hbegun := ih (b :: piece) done
        simp only [if_neg hb]
        exact hbegun

/-- No piece that `splitOn` gives holds a separator. -/
theorem Bytes.not_mem_of_mem_splitOn {sep : UInt8} {bytes piece : Bytes}
    (h : piece ∈ bytes.splitOn sep) : sep ∉ piece := by
  induction bytes generalizing piece with
  | nil =>
      rw [List.splitOn_nil, List.mem_singleton] at h
      rw [h]
      exact List.not_mem_nil
  | cons b bytes ih =>
      rw [List.splitOn_cons_eq_if_modifyHead] at h
      by_cases hb : b = sep
      · rw [if_pos (beq_iff_eq.2 hb)] at h
        rcases List.mem_cons.1 h with rfl | h
        · exact List.not_mem_nil
        · exact ih h
      · obtain ⟨first, rest, hpieces⟩ :=
          List.exists_cons_of_ne_nil (List.splitOn_ne_nil sep bytes)
        rw [if_neg (mt beq_iff_eq.1 hb), hpieces, List.modifyHead_cons] at h
        rw [hpieces] at ih
        rcases List.mem_cons.1 h with rfl | h
        · intro hmem
          rcases List.mem_cons.1 hmem with heq | hmem
          · exact hb heq.symm
          · exact ih List.mem_cons_self hmem
        · exact ih (List.mem_cons_of_mem _ h)

namespace Path

/-! ### The front of a path and its pieces -/

/-- What a path has in front of its pieces. -/
def rootText (p : Path) : Bytes :=
  if p.isAbsolute then [separator] else []

/-- The path behind its root. -/
def body (p : Path) : Bytes :=
  if p.isAbsolute then p.bytes.drop 1 else p.bytes

/-- The component that stands for the front of a path. -/
def frontComponent (absolute : Bool) (pieces : List Bytes) : List Component :=
  if absolute then [.root] else if pieces.head? == some dot then [.here] else []

theorem bytes_of_isAbsolute {p : Path} (h : p.isAbsolute = true) :
    p.bytes = separator :: p.body := by
  rw [body, if_pos h]
  rw [isAbsolute, beq_iff_eq] at h
  cases hbytes : p.bytes with
  | nil =>
      rw [hbytes] at h
      exact absurd h.symm (Option.some_ne_none _)
  | cons b rest =>
      rw [hbytes, List.head?_cons, Option.some.injEq] at h
      rw [h]
      rfl

theorem bytes_eq (p : Path) : p.bytes = p.rootText ++ p.body := by
  by_cases h : p.isAbsolute = true
  · rw [rootText, if_pos h, List.singleton_append]
    exact bytes_of_isAbsolute h
  · rw [rootText, body, if_neg h, if_neg h, List.nil_append]

theorem splitAll_bytes (p : Path) :
    Bytes.splitAll separator p.bytes =
      if p.isAbsolute then [] :: p.body.splitOn separator else p.body.splitOn separator := by
  rw [Bytes.splitAll_eq_splitOn]
  by_cases h : p.isAbsolute = true
  · rw [if_pos h, bytes_of_isAbsolute h]
    simp [List.splitOn_cons_eq_if_modifyHead]
  · rw [if_neg h, body, if_neg h]

/-- The `components` of a path: its front, then its pieces, except those that stand for nothing. -/
theorem components_eq (p : Path) :
    p.components = frontComponent p.isAbsolute (p.body.splitOn separator) ++
      (p.body.splitOn separator).filterMap Component.ofSegment? := by
  unfold components frontComponent
  simp only [splitAll_bytes]
  by_cases h : p.isAbsolute = true
  · rw [if_pos h, if_pos h, if_pos h]
    rfl
  · rw [if_neg h, if_neg h, if_neg h]
    split <;> rfl

/-- `parent?` leaves out the last piece that stands for something, and all behind it. -/
theorem parent?_eq (p : Path) :
    p.parent? =
      match dropIdle p.isAbsolute (p.body.splitOn separator).reverse with
      | [] => none
      | _ :: before =>
        some ⟨p.rootText ++
          List.intercalate [separator] (dropIdle p.isAbsolute before).reverse⟩ := by
  unfold parent? rootText
  simp only [splitAll_bytes]
  by_cases h : p.isAbsolute = true
  · simp only [if_pos h, List.drop_succ_cons, List.drop_zero]
    cases dropIdle p.isAbsolute (p.body.splitOn separator).reverse <;> rfl
  · simp only [if_neg h]
    cases dropIdle p.isAbsolute (p.body.splitOn separator).reverse <;> rfl

/-! ### Names -/

/-- What can be the name of a file or of a directory. -/
structure IsName (name : Bytes) : Prop where
  /-- It is not empty. -/
  ne_nil : name ≠ []
  /-- It is one piece. -/
  separator : separator ∉ name
  /-- It is not the directory where it stands. -/
  ne_dot : name ≠ dot
  /-- It is not the directory above. -/
  ne_dotDot : name ≠ dotDot

instance (name : Bytes) : Decidable (IsName name) :=
  decidable_of_iff (name ≠ [] ∧ Path.separator ∉ name ∧ name ≠ dot ∧ name ≠ dotDot)
    ⟨fun ⟨hnil, hsep, hdot, hdotDot⟩ => ⟨hnil, hsep, hdot, hdotDot⟩,
      fun h => ⟨h.ne_nil, h.separator, h.ne_dot, h.ne_dotDot⟩⟩

/-- A component that is a name is one that `IsName` holds of. -/
theorem isName_of_mem_components {p : Path} {b : Bytes} (h : .name b ∈ p.components) :
    IsName b := by
  rw [components_eq] at h
  rcases List.mem_append.1 h with hfront | hpiece
  · -- what stands for the front of a path is no name
    unfold frontComponent at hfront
    split at hfront
    · exact absurd (List.mem_singleton.1 hfront) Component.noConfusion
    · split at hfront
      · exact absurd (List.mem_singleton.1 hfront) Component.noConfusion
      · exact absurd hfront List.not_mem_nil
  · obtain ⟨segment, hsegment, hname⟩ := List.mem_filterMap.1 hpiece
    unfold Component.ofSegment? at hname
    split at hname
    · cases hname
    · rename_i hidle
      split at hname
      · cases hname
      · rename_i hup
        obtain rfl : segment = b := Component.name.inj (Option.some.inj hname)
        simp only [Bool.or_eq_true, beq_iff_eq, not_or] at hidle hup
        exact ⟨hidle.1, Bytes.not_mem_of_mem_splitOn hsegment, hidle.2, hup⟩

/-- The `fileName?` is the last component. -/
theorem components_of_fileName? {p : Path} {b : Bytes} (h : p.fileName? = some b) :
    ∃ above, p.components = above ++ [.name b] := by
  unfold fileName? at h
  split at h
  · rename_i found hlast
    obtain ⟨above, habove⟩ := List.getLast?_eq_some_iff.1 hlast
    exact ⟨above, by rw [habove, Option.some.inj h]⟩
  · cases h

theorem fileName?_of_components {p : Path} {above : List Component} {b : Bytes}
    (h : p.components = above ++ [.name b]) : p.fileName? = some b := by
  rw [fileName?, h, List.getLast?_concat]

/-- A `fileName?` has no separator. -/
theorem not_mem_fileName? {p : Path} {b : Bytes} (h : p.fileName? = some b) : separator ∉ b := by
  obtain ⟨above, habove⟩ := components_of_fileName? h
  have hmem : .name b ∈ p.components := by
    rw [habove]
    exact List.mem_append_right _ List.mem_cons_self
  exact (isName_of_mem_components hmem).separator

/-- Bytes without a separator have none in their `Utf8.decodeLossy` text. -/
theorem slash_not_mem_decodeLossy {b : Bytes} (h : separator ∉ b) :
    '/' ∉ (Utf8.decodeLossy b).toList := by
  intro hmem
  have hascii : Utf8.IsAscii ['/'] := by decide
  have hinfix := (List.singleton_infix_iff '/' (Utf8.decodeLossy b).toList).2 hmem
  exact h ((List.singleton_infix_iff _ _).1 (Utf8.infix_of_decodeLossy hascii hinfix))

theorem IsName.ofSegment? {name : Bytes} (h : IsName name) :
    Component.ofSegment? name = some (.name name) := by
  have hidle : ¬((name == [] || name == dot) = true) := by
    simp [h.ne_nil, h.ne_dot]
  have hup : ¬((name == dotDot) = true) := by
    simp [h.ne_dotDot]
  rw [Component.ofSegment?, if_neg hidle, if_neg hup]

theorem IsName.dropIdle {name : Bytes} (h : IsName name) (absolute : Bool) (before : List Bytes) :
    dropIdle absolute (name :: before) = name :: before := by
  simp [Path.dropIdle, h.ne_nil, h.ne_dot]

/-- The path of something in a directory. Whatever the path of the directory ends with, there is one
separator more. -/
def inside (dir : Path) (name : Bytes) : Path :=
  ⟨dir.bytes ++ separator :: name⟩

section Inside

variable {dir : Path}

theorem isAbsolute_inside (hdir : dir.bytes ≠ []) (name : Bytes) :
    (dir.inside name).isAbsolute = dir.isAbsolute := by
  obtain ⟨b, rest, hbytes⟩ := List.exists_cons_of_ne_nil hdir
  simp [isAbsolute, inside, hbytes]

theorem rootText_inside (hdir : dir.bytes ≠ []) (name : Bytes) :
    (dir.inside name).rootText = dir.rootText := by
  rw [rootText, rootText, isAbsolute_inside hdir]

theorem body_inside (hdir : dir.bytes ≠ []) (name : Bytes) :
    (dir.inside name).body = dir.body ++ separator :: name := by
  obtain ⟨b, rest, hbytes⟩ := List.exists_cons_of_ne_nil hdir
  rw [body, body, isAbsolute_inside hdir]
  by_cases h : dir.isAbsolute = true
  · simp [h, inside, hbytes]
  · simp [h, inside]

theorem splitOn_body_inside (hdir : dir.bytes ≠ []) {name : Bytes} (hname : IsName name) :
    (dir.inside name).body.splitOn separator = dir.body.splitOn separator ++ [name] := by
  rw [body_inside hdir, List.splitOn_append_cons_self, List.splitOn_eq_singleton hname.separator]

/-- A path `inside` a directory has one component more. -/
theorem components_inside (hdir : dir.bytes ≠ []) {name : Bytes} (hname : IsName name) :
    (dir.inside name).components = dir.components ++ [.name name] := by
  obtain ⟨piece, rest, hpieces⟩ :=
    List.exists_cons_of_ne_nil (List.splitOn_ne_nil separator dir.body)
  rw [components_eq, components_eq, isAbsolute_inside hdir, splitOn_body_inside hdir hname,
    List.filterMap_append, List.append_assoc, hpieces]
  simp [frontComponent, hname.ofSegment?]

theorem fileName?_inside (hdir : dir.bytes ≠ []) {name : Bytes} (hname : IsName name) :
    (dir.inside name).fileName? = some name := by
  rw [fileName?, components_inside hdir hname, List.getLast?_append]
  rfl

/-- The path without what stands for nothing at its end. -/
def trimmed (p : Path) : Path :=
  ⟨p.rootText ++
    List.intercalate [separator]
      (dropIdle p.isAbsolute (p.body.splitOn separator).reverse).reverse⟩

/-- `parent?` leads from `inside` a directory to the directory, `trimmed`. -/
theorem parent?_inside (hdir : dir.bytes ≠ []) {name : Bytes} (hname : IsName name) :
    (dir.inside name).parent? = some dir.trimmed := by
  rw [parent?_eq, isAbsolute_inside hdir, rootText_inside hdir, splitOn_body_inside hdir hname,
    List.reverse_append, List.reverse_singleton, List.singleton_append, hname.dropIdle, trimmed]

/-- A path `inside` a directory ends with a name, so that `trimmed` drops nothing. -/
theorem trimmed_inside (hdir : dir.bytes ≠ []) {name : Bytes} (hname : IsName name) :
    (dir.inside name).trimmed = dir.inside name := by
  have hpieces := splitOn_body_inside hdir hname
  have hkept : dropIdle (dir.inside name).isAbsolute
      ((dir.inside name).body.splitOn separator).reverse =
        ((dir.inside name).body.splitOn separator).reverse := by
    rw [hpieces, List.reverse_append, List.reverse_singleton, List.singleton_append,
      hname.dropIdle]
  rw [trimmed, hkept, List.reverse_reverse, List.intercalate_splitOn, ← bytes_eq]

end Inside

/-! ### What is dropped -/

/-- `dropIdle` drops only pieces that stand for nothing. -/
theorem dropIdle_split (absolute : Bool) (pieces : List Bytes) :
    ∃ idle, pieces = idle ++ dropIdle absolute pieces ∧
      ∀ piece ∈ idle, Component.ofSegment? piece = none := by
  induction pieces with
  | nil => exact ⟨[], rfl, fun piece h => absurd h List.not_mem_nil⟩
  | cons piece before ih =>
      rw [dropIdle]
      split
      · rename_i hidle
        obtain ⟨idle, heq, hnone⟩ := ih
        refine ⟨piece :: idle, congrArg (piece :: ·) heq, ?_⟩
        intro other hother
        rcases List.mem_cons.1 hother with rfl | hother
        · have hpiece : (other == [] || other == dot) = true := by
            simp only [Bool.or_eq_true, Bool.and_eq_true] at hidle ⊢
            exact hidle.imp_right And.left
          rw [Component.ofSegment?, if_pos hpiece]
        · exact hnone other hother
      · exact ⟨[], rfl, fun other h => absurd h List.not_mem_nil⟩

/-- `dropIdle` drops the piece in front of a relative path only if it is empty. -/
theorem eq_nil_of_dropIdle (pieces : List Bytes) {first : Bytes}
    (h : dropIdle false (pieces ++ [first]) = []) : first = [] := by
  induction pieces with
  | nil =>
      simp only [List.nil_append, dropIdle] at h
      split at h
      · rename_i hidle
        simpa using hidle
      · exact absurd h (List.cons_ne_nil _ _)
  | cons piece pieces ih =>
      rw [List.cons_append, dropIdle] at h
      split at h
      · exact ih h
      · exact absurd h (List.cons_ne_nil _ _)

/-! ### Paths out of pieces -/

/-- `splitOn` finds the components of pieces again that `intercalate` has put together. -/
theorem filterMap_splitOn_intercalate {pieces : List Bytes}
    (h : ∀ piece ∈ pieces, separator ∉ piece) :
    ((List.intercalate [separator] pieces).splitOn separator).filterMap Component.ofSegment? =
      pieces.filterMap Component.ofSegment? := by
  by_cases hnil : pieces = []
  · subst hnil
    rfl
  · rw [List.splitOn_intercalate separator h hnil]

/-- The path that some pieces make. -/
def ofPieces (absolute : Bool) (pieces : List Bytes) : Path :=
  ⟨(if absolute then [separator] else []) ++ List.intercalate [separator] pieces⟩

/-- `ofPieces` makes a path with the components of its pieces. -/
theorem components_ofPieces {absolute : Bool} {pieces : List Bytes}
    (hclean : ∀ piece ∈ pieces, separator ∉ piece)
    (hfirst : absolute = false → pieces.head? ≠ some []) :
    (ofPieces absolute pieces).components =
      frontComponent absolute pieces ++ pieces.filterMap Component.ofSegment? := by
  cases absolute with
  | true =>
      have habsolute : (ofPieces true pieces).isAbsolute = true := rfl
      have hbody : (ofPieces true pieces).body = List.intercalate [separator] pieces := rfl
      rw [components_eq, habsolute, hbody, filterMap_splitOn_intercalate hclean]
      rfl
  | false =>
      have hbytes : (ofPieces false pieces).bytes = List.intercalate [separator] pieces := rfl
      cases pieces with
      | nil => rfl
      | cons first rest =>
          obtain ⟨b, more, rfl⟩ : ∃ b more, first = b :: more :=
            List.exists_cons_of_ne_nil fun h => hfirst rfl (congrArg some h)
          have hb : b ≠ separator := by
            rintro rfl
            exact hclean _ List.mem_cons_self List.mem_cons_self
          have hrelative : (ofPieces false ((b :: more) :: rest)).isAbsolute = false := by
            rw [isAbsolute, hbytes]
            cases rest <;> simp [hb]
          have hbody : (ofPieces false ((b :: more) :: rest)).body =
              List.intercalate [separator] ((b :: more) :: rest) := by
            rw [body, hrelative]
            rfl
          rw [components_eq, hrelative, hbody,
            List.splitOn_intercalate separator hclean (List.cons_ne_nil _ _)]

/-- The first piece of a relative path is empty in the empty path only. -/
theorem reverse_splitOn_body {p : Path} (hp : p.isAbsolute = false)
    (h : (p.body.splitOn separator).reverse.getLast? = some []) :
    (p.body.splitOn separator).reverse = [[]] := by
  have hbody : p.body = p.bytes := by
    rw [body, hp]
    rfl
  rw [List.getLast?_reverse] at h
  rw [hbody] at h ⊢
  rw [isAbsolute] at hp
  cases hbytes : p.bytes with
  | nil => rfl
  | cons b rest =>
      have hb : ¬(b == separator) = true := by
        simpa [hbytes] using hp
      obtain ⟨first, more, hpieces⟩ :=
        List.exists_cons_of_ne_nil (List.splitOn_ne_nil separator rest)
      rw [hbytes, List.splitOn_cons_eq_if_modifyHead, if_neg hb, hpieces] at h
      simp at h

/-- `dropIdle` costs a path none of its components. Pieces are listed from the end. -/
theorem components_ofPieces_dropIdle {absolute : Bool} {pieces : List Bytes}
    (hclean : ∀ piece ∈ pieces, separator ∉ piece)
    (hfirst : absolute = false → pieces.getLast? = some [] → pieces = [[]]) :
    (ofPieces absolute (dropIdle absolute pieces).reverse).components =
      frontComponent absolute pieces.reverse ++
        pieces.reverse.filterMap Component.ofSegment? := by
  obtain ⟨idle, hsplit, hidle⟩ := dropIdle_split absolute pieces
  generalize hdropped : dropIdle absolute pieces = dropped at hsplit
  have hnone : idle.reverse.filterMap Component.ofSegment? = [] := by
    rw [List.filterMap_eq_nil_iff]
    intro piece hpiece
    exact hidle piece (List.mem_reverse.1 hpiece)
  have hkept : ∀ piece ∈ dropped.reverse, separator ∉ piece := by
    intro piece hpiece
    refine hclean piece ?_
    rw [hsplit]
    exact List.mem_append_right _ (List.mem_reverse.1 hpiece)
  have hall : pieces.reverse.filterMap Component.ofSegment? =
      dropped.reverse.filterMap Component.ofSegment? := by
    rw [hsplit, List.reverse_append, List.filterMap_append, hnone, List.append_nil]
  rw [hall]
  by_cases hnil : dropped = []
  · -- nothing is kept, so there was no `.` in front that could be lost
    have hfront : frontComponent absolute pieces.reverse = frontComponent absolute [] := by
      cases absolute with
      | true => rfl
      | false =>
          rcases List.eq_nil_or_concat pieces with rfl | ⟨rest, first, rfl⟩
          · rfl
          · rw [hnil] at hdropped
            have hempty : first = [] := eq_nil_of_dropIdle rest (by simpa using hdropped)
            simp [frontComponent, hempty, dot]
    rw [hfront, hnil]
    exact components_ofPieces (fun piece h => absurd h List.not_mem_nil) fun _ => by simp
  · have hlast : pieces.getLast? = dropped.getLast? := by
      rw [hsplit, List.getLast?_append, Option.or_of_isSome (List.getLast?_isSome.2 hnil)]
    have hfront : frontComponent absolute pieces.reverse =
        frontComponent absolute dropped.reverse := by
      rw [frontComponent, frontComponent, List.head?_reverse, List.head?_reverse, hlast]
    rw [hfront]
    refine components_ofPieces hkept fun habsolute hhead => ?_
    rw [List.head?_reverse, ← hlast] at hhead
    -- the only piece would be empty, and would have been dropped
    have hone := hfirst habsolute hhead
    rw [hone] at hdropped
    exact hnil hdropped.symm

/-- `trimmed` is the same path by its components. -/
theorem components_trimmed (p : Path) : p.trimmed.components = p.components := by
  have hclean : ∀ piece ∈ (p.body.splitOn separator).reverse, separator ∉ piece := by
    intro piece hpiece
    exact Bytes.not_mem_of_mem_splitOn (List.mem_reverse.1 hpiece)
  have hmade := components_ofPieces_dropIdle hclean reverse_splitOn_body
  rw [List.reverse_reverse, ← components_eq] at hmade
  exact hmade

/-- `parent?` leads from `inside` a directory that is inside another one to a path of that one. -/
theorem parent?_parent?_inside {dir : Path} (hdir : dir.bytes ≠ []) {name file : Bytes}
    (hname : IsName name) (hfile : IsName file) :
    ((dir.inside name).inside file).parent? = some (dir.inside name) ∧
      (dir.inside name).parent? = some dir.trimmed := by
  refine ⟨?_, parent?_inside hdir hname⟩
  have hne : (dir.inside name).bytes ≠ [] :=
    List.append_ne_nil_of_right_ne_nil _ (List.cons_ne_nil _ _)
  rw [parent?_inside hne hfile, trimmed_inside hdir hname]

end Path

end ResourceShards
