import CorpusIndex.Files
import CorpusIndex.Proofs.Except
import CorpusIndex.Proofs.SortedMap
import CorpusIndex.Proofs.Text.Utf8
import CorpusIndex.Proofs.Text.Words

/-!
# Files read back

A path to a name in a directory leads to the entry of that name. Writing a file there moves no
directory, so all paths lead where they led before, and the text is read back.
-/
namespace CorpusIndex

/-! ### Paths to the entries of a directory -/

namespace Path
variable {base name : String} {cwd : List String}

/-- The name stands for an entry of a directory. -/
structure IsEntry (name : String) : Prop where
  ne_empty : name ≠ ""
  no_slash : '/' ∉ name.toList
  ne_dot : name ≠ "."
  ne_up : name ≠ ".."

namespace IsEntry

theorem toList_ne_nil (h : IsEntry name) : name.toList ≠ [] := by simpa using h.ne_empty

theorem not_absolute (h : IsEntry name) : isAbsolute name = false := by
  rw [isAbsolute, beq_eq_false_iff_ne]
  exact fun hhead => h.no_slash (List.mem_of_mem_head? hhead)

theorem not_leadsInto (h : IsEntry name) (s : List Char) :
    ((s ++ name.toList).getLast? == some '/') = false := by
  rw [beq_eq_false_iff_ne, List.getLast?_append_of_ne_nil _ h.toList_ne_nil]
  exact fun hlast => h.no_slash (List.mem_of_getLast? hlast)

theorem step (h : IsEntry name) (place : List String) : Path.step place name = place ++ [name] := by
  rw [Path.step, if_neg h.ne_dot, if_neg h.ne_up]

end IsEntry

/-- A name is put after the slash that ends a path, or after a slash of its own. -/
theorem join_cases (base : String) (h : IsEntry name) :
    join base name = base ++ name ∧ (base = "" ∨ ∃ s, base.toList = s ++ ['/']) ∨
      join base name = base ++ "/" ++ name ∧ base ≠ "" := by
  rw [join, h.not_absolute, if_neg (by simp)]
  split
  next hend =>
    refine .inl ⟨rfl, ?_⟩
    rw [Bool.or_eq_true, beq_iff_eq, List.getLast?_eq_some_iff] at hend
    exact hend.imp String.isEmpty_iff.mp id
  next hend => exact .inr ⟨rfl, fun hbase => hend (by simp [hbase])⟩

theorem isEmpty_join (h : IsEntry name) : (join base name).isEmpty = false := by
  have hname : name ≠ "" := h.ne_empty
  rcases join_cases base h with ⟨hjoin, _⟩ | ⟨hjoin, _⟩
  · simp [hjoin, hname]
  · simp [hjoin]

theorem leadsInto_join (h : IsEntry name) : leadsInto (join base name) = false := by
  rcases join_cases base h with ⟨hjoin, _⟩ | ⟨hjoin, _⟩
  · rw [hjoin, leadsInto, String.toList_append]
    exact h.not_leadsInto _
  · rw [hjoin, leadsInto, String.toList_append]
    exact h.not_leadsInto _

theorem start_join (h : IsEntry name) : start cwd (join base name) = start cwd base := by
  have hhead : isAbsolute (join base name) = isAbsolute base := by
    by_cases hbase : base = ""
    · rcases join_cases base h with ⟨hjoin, _⟩ | ⟨_, hne⟩
      · subst hbase
        have hname : join "" name = name := by simpa using hjoin
        rw [hname, h.not_absolute]
        rfl
      · exact absurd hbase hne
    · have hcons : base.toList ≠ [] := by simpa using hbase
      rcases join_cases base h with ⟨hjoin, _⟩ | ⟨hjoin, _⟩
      · rw [hjoin, isAbsolute, String.toList_append, List.head?_append_of_ne_nil _ hcons]
        rfl
      · rw [hjoin, isAbsolute, String.toList_append, String.toList_append, List.append_assoc,
          List.head?_append_of_ne_nil _ hcons]
        rfl
  rw [start, start, hhead]

theorem pieces_entry (h : IsEntry name) : Text.pieces (· == '/') name.toList = [name.toList] :=
  Text.pieces_of_not_mem h.no_slash

theorem names_of_slash {path : String} {s : List Char} (h : IsEntry name)
    (hpath : path.toList = s ++ '/' :: name.toList) :
    names path = ((Text.pieces (· == '/') s).map String.ofList).filter (· ≠ "") ++ [name] := by
  rw [names, hpath, Text.pieces_append s (by rfl), pieces_entry h]
  simp [h.ne_empty]

theorem names_join (h : IsEntry name) : names (join base name) = names base ++ [name] := by
  rcases join_cases base h with ⟨hjoin, rfl | ⟨s, hs⟩⟩ | ⟨hjoin, _⟩
  · have hname : join "" name = name := by simpa using hjoin
    rw [hname, names, pieces_entry h]
    simp [h.ne_empty, names]
  · have hpath : (join base name).toList = s ++ '/' :: name.toList := by
      rw [hjoin, String.toList_append, hs, List.append_assoc, List.singleton_append]
    rw [names_of_slash h hpath, names, hs, Text.pieces_append s (by rfl)]
    simp
  · have hpath : (join base name).toList = base.toList ++ '/' :: name.toList := by
      rw [hjoin]
      simp
    rw [names_of_slash h hpath, names]

end Path

/-! ### Walks -/

namespace FileTree
variable {t t' : FileTree} {cwd place other names : List String} {base name path text : String}
  {bytes : List UInt8}

theorem walk_append (h : t.walk place names = .ok other) (more : List String) :
    t.walk place (names ++ more) = t.walk other more := by
  induction names generalizing place with
  | nil =>
      cases h
      rfl
  | cons name names ih =>
      rw [walk] at h
      rw [List.cons_append, walk]
      split at h
      next hdir =>
        rw [if_pos hdir]
        exact ih h
      next => cases h

/-- Only directories are looked at on the way. -/
theorem walk_mono (h : t.walk place names = .ok other)
    (hkeep : ∀ p, t.isDirectory p = true → t'.isDirectory p = true) : t'.walk place names = .ok other := by
  induction names generalizing place with
  | nil => exact h
  | cons name names ih =>
      rw [walk] at h ⊢
      split at h
      next hdir =>
        rw [if_pos (hkeep place hdir)]
        exact ih h
      next => cases h

/-- A path to a name in a directory leads to the entry of that name. -/
theorem locate_join (hwalk : t.walk (Path.start cwd base) (Path.names base) = .ok place)
    (hdir : t.isDirectory place = true) (hname : Path.IsEntry name) :
    t.locate cwd (Path.join base name) = .ok (place ++ [name]) := by
  rw [locate, Path.isEmpty_join hname, Path.leadsInto_join hname, Path.start_join hname,
    Path.names_join hname]
  simp only [Bool.false_eq_true, if_false, List.append_nil]
  rw [walk_append hwalk, walk, if_pos hdir, hname.step, walk]

/-! ### Directories that are made -/

theorem leadsToDirectory_iff : t.leadsToDirectory place names = true ↔
    ∃ p, t.walk place names = .ok p ∧ t.isDirectory p = true := by
  unfold leadsToDirectory
  cases t.walk place names <;> simp

theorem entry?_insert_self (hplace : place ≠ []) (e : FileEntry) :
    entry? ⟨t.entries.insert place e⟩ place = some e := by
  have hempty : place.isEmpty = false := by simpa using hplace
  unfold entry?
  rw [hempty]
  exact SortedMap.get?_insert_self _ _ _

theorem entry?_insert_of_ne (h : other ≠ place) (e : FileEntry) :
    entry? ⟨t.entries.insert place e⟩ other = t.entry? other := by
  unfold entry?
  rw [SortedMap.get?_insert_of_ne _ _ h]

/-- A directory is new and lies in the one above. -/
theorem makeLast_cases (h : t.makeLast place names = .ok t') :
    ∃ parent last, names = names.dropLast ++ [last] ∧ t.walk place names.dropLast = .ok parent ∧
      t.isDirectory parent = true ∧ Path.step parent last = parent ++ [last] ∧
      t.entry? (parent ++ [last]) = none ∧
      t' = ⟨t.entries.insert (parent ++ [last]) .directory⟩ := by
  unfold makeLast at h
  split at h
  next => cases h
  next last hlast =>
    obtain ⟨parent, hparent, h⟩ := bind_eq_ok.mp h
    dsimp only at h
    split at h
    next => cases h
    next hdir =>
      split at h
      next => cases h
      next hfree =>
        obtain ⟨hname, hnone⟩ := not_or.mp (mt Bool.or_eq_true_iff.mpr hfree)
        obtain ⟨hdot, hup⟩ := not_or.mp (mt Bool.or_eq_true_iff.mpr hname)
        have hstep : Path.step parent last = parent ++ [last] := by
          rw [Path.step, if_neg (by simpa using hdot), if_neg (by simpa using hup)]
        rw [hstep] at hnone h
        refine ⟨parent, last, ?_, hparent, by simpa using hdir, hstep, by simpa using hnone, ?_⟩
        · rw [List.dropLast_append_getLast? last hlast]
        · cases h
          rfl

theorem makeLast_leads (h : t.makeLast place names = .ok t') : t'.leadsToDirectory place names = true := by
  obtain ⟨parent, last, hnames, hparent, hdir, hstep, hnone, rfl⟩ := makeLast_cases h
  let made : FileTree := ⟨t.entries.insert (parent ++ [last]) .directory⟩
  have hkeep : ∀ p, t.isDirectory p = true → made.isDirectory p = true := by
    intro p hp
    have hne : p ≠ parent ++ [last] := by
      rintro rfl
      rw [isDirectory, hnone] at hp
      cases hp
    rw [isDirectory, entry?_insert_of_ne hne]
    exact hp
  have hwalk : made.walk place names = .ok (parent ++ [last]) := by
    rw [hnames, walk_append (walk_mono hparent hkeep), walk, if_pos (hkeep parent hdir), hstep, walk]
  refine leadsToDirectory_iff.mpr ⟨_, hwalk, ?_⟩
  rw [isDirectory, entry?_insert_self (by simp)]
  rfl

theorem settleLast_leads (h : t.settleLast place names = .ok t') : t'.leadsToDirectory place names = true := by
  unfold settleLast at h
  split at h
  next made hmade =>
    cases h
    exact makeLast_leads hmade
  next =>
    split at h
    next hleads =>
      cases h
      exact hleads
    next => cases h

theorem makeAlong_leads (h : t.makeAlong place names = .ok t') : t'.leadsToDirectory place names = true := by
  rw [makeAlong] at h
  split at h
  next =>
    split at h
    next => cases h
    next =>
      obtain ⟨above, _, hlast⟩ := bind_eq_ok.mp h
      exact settleLast_leads hlast
  next => exact settleLast_leads h

/-! ### Files that are written -/

theorem write_eq_ok (h : t.write place bytes = .ok t') :
    t.isDirectory place = false ∧ t' = ⟨t.entries.insert place (.file bytes)⟩ := by
  unfold write at h
  split at h
  next => cases h
  next hfile =>
    split at h
    next =>
      cases h
      exact ⟨by simpa using hfile, rfl⟩
    next => cases h

theorem write_of_free (bytes : List UInt8) (hfile : t.isDirectory place = false)
    (hdir : t.isDirectory place.dropLast = true) :
    t.write place bytes = .ok ⟨t.entries.insert place (.file bytes)⟩ := by
  rw [write, hfile, hdir]
  rfl

theorem ne_nil_of_not_isDirectory (h : t.isDirectory place = false) : place ≠ [] := by
  rintro rfl
  cases h

theorem isDirectory_write (h : t.write place bytes = .ok t') (p : List String) :
    t'.isDirectory p = t.isDirectory p := by
  obtain ⟨hfile, rfl⟩ := write_eq_ok h
  by_cases hp : p = place
  · subst hp
    rw [hfile, isDirectory, entry?_insert_self (ne_nil_of_not_isDirectory hfile)]
    rfl
  · rw [isDirectory, isDirectory, entry?_insert_of_ne hp]

theorem readText_writeText (h : t.writeText place text = .ok t') : t'.readText place = .ok text := by
  obtain ⟨hfile, rfl⟩ := write_eq_ok h
  have hread : read ⟨t.entries.insert place (.file text.toUTF8.toList)⟩ place =
      .ok text.toUTF8.toList := by
    rw [read, entry?_insert_self (ne_nil_of_not_isDirectory hfile)]
  rw [readText, hread, ok_bind, Text.utf8?_toUTF8]
  rfl

/-- Other files keep their texts. -/
theorem readText_write_of_ne (h : t.write place bytes = .ok t') (hne : other ≠ place)
    (htext : t.readText other = .ok text) : t'.readText other = .ok text := by
  obtain ⟨_, rfl⟩ := write_eq_ok h
  obtain ⟨found, hread, hdecode⟩ := bind_eq_ok.mp htext
  have hsame : read ⟨t.entries.insert place (.file bytes)⟩ other = .ok found := by
    rw [read] at hread ⊢
    rw [entry?_insert_of_ne hne]
    split at hread
    next => exact hread
    next => cases hread
    next => cases hread
  rw [readText, hsame]
  exact hdecode

theorem textAt_eq_ok : t.textAt cwd path = .ok text ↔
    ∃ p, t.locate cwd path = .ok p ∧ t.readText p = .ok text := bind_eq_ok

end FileTree
end CorpusIndex
