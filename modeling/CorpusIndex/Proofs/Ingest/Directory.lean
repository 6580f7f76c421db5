import CorpusIndex.Directory
import CorpusIndex.Proofs.Ingest.Chunks
import CorpusIndex.Proofs.NodeStore

/-!
# Ids of the files of a directory

Every text file below a directory is a document of its own. Its id is its path with every backslash made a
slash, but a backslash may stand in a name like any other character. So two files have the same id exactly when
their paths have the same parts between slashes and backslashes, and two such files with a word each are
refused when their chunks are stored.
-/
namespace CorpusIndex

/-! ### Files below a directory -/

namespace FileTree
variable {t : FileTree} {directory names : List String} {bytes : List UInt8}

/-- No name holds a slash. -/
def Unslashed (t : FileTree) : Prop := ∀ e ∈ t.entries.toList, ∀ name ∈ e.1, '/' ∉ name.toList

instance : Decidable t.Unslashed :=
  inferInstanceAs (Decidable (∀ e ∈ t.entries.toList, ∀ name ∈ e.1, '/' ∉ name.toList))

/-- A file below a directory, under the names that lead there. -/
def fileBelow? (directory : List String) : List String × FileEntry → Option (List String × List UInt8)
  | (place, .file bytes) =>
    if directory.isPrefixOf place && directory.length < place.length then some (place.drop directory.length, bytes)
    else none
  | (_, .directory) => none

theorem filesBelow_eq (t : FileTree) (directory : List String) :
    t.filesBelow directory = t.entries.toList.filterMap (fileBelow? directory) := by
  rw [filesBelow]
  refine congrArg (List.filterMap · _) (funext fun e => ?_)
  obtain ⟨place, entry⟩ := e
  cases entry with
  | directory => rfl
  | file bytes => rfl

theorem fileBelow?_eq_some {e : List String × FileEntry} :
    fileBelow? directory e = some (names, bytes) ↔ names ≠ [] ∧ e = (directory ++ names, .file bytes) := by
  obtain ⟨place, entry⟩ := e
  cases entry with
  | directory => simp [fileBelow?]
  | file content =>
      simp only [fileBelow?, Option.ite_none_right_eq_some, Bool.and_eq_true, List.isPrefixOf_iff_prefix,
        decide_eq_true_eq, Option.some.injEq, Prod.mk.injEq, FileEntry.file.injEq]
      constructor
      · rintro ⟨⟨⟨rest, rfl⟩, hlength⟩, hrest, rfl⟩
        rw [List.drop_left] at hrest
        subst hrest
        exact ⟨fun hnil => by simp [hnil] at hlength, rfl, rfl⟩
      · rintro ⟨hne, rfl, rfl⟩
        exact ⟨⟨List.prefix_append _ _, by simpa using List.length_pos_iff.mpr hne⟩, List.drop_left, rfl⟩

theorem mem_filesBelow : (names, bytes) ∈ t.filesBelow directory ↔
    names ≠ [] ∧ t.entries.get? (directory ++ names) = some (.file bytes) := by
  simp only [filesBelow_eq, List.mem_filterMap, fileBelow?_eq_some, SortedMap.get?_eq_some_iff]
  constructor
  · rintro ⟨_, hin, hne, rfl⟩
    exact ⟨hne, hin⟩
  · rintro ⟨hne, hin⟩
    exact ⟨_, hin, hne, rfl⟩

/-- Different files are found under different names. -/
theorem nodup_filesBelow : ((t.filesBelow directory).map (·.1)).Nodup := by
  rw [filesBelow_eq, List.Nodup, List.pairwise_map, List.pairwise_filterMap]
  refine t.entries.sorted.imp fun {d e} hlt f hf g hg heq => ?_
  obtain ⟨_, rfl⟩ := fileBelow?_eq_some.mp hf
  obtain ⟨_, rfl⟩ := fileBelow?_eq_some.mp hg
  rw [heq, Std.compare_self] at hlt
  cases hlt

end FileTree

/-! ### Parts of paths -/

namespace Directory
open Text

variable {a b names : List String} {bytes other : List UInt8} {root : String}

/-- Names that lead from a directory to a file below it. -/
structure IsPath (names : List String) : Prop where
  ne_nil : names ≠ []
  no_slash : ∀ name ∈ names, '/' ∉ name.toList

/-- The parts of the names on a path between backslashes. -/
def parts (names : List String) : List (List Char) := names.flatMap fun name => pieces (· == '\\') name.toList

theorem pieces_slashes (s : String) :
    pieces (· == '/') (slashes s).toList = pieces (fun c => c == '/' || c == '\\') s.toList := by
  rw [slashes, replaceChar, String.toList_ofList]
  induction s.toList with
  | nil => rfl
  | cons c s ih =>
      rw [List.map_cons, pieces, pieces, ih]
      by_cases hback : c = '\\'
      · simp [hback]
      · simp [hback]

theorem pieces_name {name : String} (h : '/' ∉ name.toList) :
    pieces (fun c => c == '/' || c == '\\') name.toList = pieces (· == '\\') name.toList :=
  pieces_congr fun c hc => by simp [ne_of_mem_of_not_mem hc h]

theorem pieces_path (h : IsPath names) :
    pieces (fun c => c == '/' || c == '\\') (String.intercalate "/" names).toList = parts names := by
  have hpath := pieces_intercalate (p := fun c => c == '/' || c == '\\') (c := '/') (l := names.map String.toList) rfl
    (by simpa using h.ne_nil)
  rw [List.flatMap_map, List.flatMap_congr fun name hname => pieces_name (h.no_slash name hname)] at hpath
  rw [String.toList_intercalate]
  exact hpath

theorem pieces_id (root : String) (bytes : List UInt8) (h : IsPath names) :
    pieces (· == '/') (document root names bytes).id.toList = parts names :=
  (pieces_slashes _).trans (pieces_path h)

/-- Two files have the same id exactly when their paths have the same parts. -/
theorem id_eq_iff (ha : IsPath a) (hb : IsPath b) :
    (document root a bytes).id = (document root b other).id ↔ parts a = parts b := by
  rw [← pieces_id root bytes ha, ← pieces_id root other hb]
  exact ⟨fun h => h ▸ rfl, fun h => String.toList_inj.mp (eq_of_pieces_eq h)⟩

/-! ### Documents -/

variable {files : FileTree} {cwd place : List String}

/-- The text files below a place. -/
def textFiles (files : FileTree) (place : List String) : List (List String × List UInt8) :=
  (files.filesBelow place).filter fun f => isTextName (f.1.getLast?.getD "")

def upTo (limit : Option Nat) (fs : List (List String × List UInt8)) : List (List String × List UInt8) :=
  match limit with
  | some n => fs.take n
  | none => fs

theorem upTo_sublist (limit : Option Nat) (fs : List (List String × List UInt8)) : (upTo limit fs).Sublist fs := by
  cases limit with
  | none => exact List.Sublist.refl fs
  | some n => exact List.take_sublist n fs

theorem mem_textFiles : (names, bytes) ∈ textFiles files place ↔ names ≠ [] ∧
    files.entries.get? (place ++ names) = some (.file bytes) ∧ isTextName (names.getLast?.getD "") = true := by
  rw [textFiles, List.mem_filter, FileTree.mem_filesBelow, and_assoc]

theorem nodup_textFiles (files : FileTree) (place : List String) : ((textFiles files place).map (·.1)).Nodup :=
  FileTree.nodup_filesBelow.sublist (List.filter_sublist.map _)

theorem documents_eq_ok (hplace : files.locate cwd root = .ok place) (hdir : files.isDirectory place = true)
    (limit : Option Nat) : documents files cwd root limit =
      .ok ((upTo limit (textFiles files place)).map fun f => document root f.1 f.2) := by
  rw [documents, hplace]
  simp only [Except.toOption, Option.filter, hdir, if_true]
  rfl

theorem isPath_of_mem_textFiles (hnames : files.Unslashed) (h : (names, bytes) ∈ textFiles files place) :
    IsPath names := by
  obtain ⟨hne, hfile, _⟩ := mem_textFiles.mp h
  exact ⟨hne, fun name hname =>
    hnames _ (SortedMap.get?_eq_some_iff.mp hfile) name (List.mem_append_right place hname)⟩

/-- No two of the files with a word have the same parts. -/
def Apart (fs : List (List String × List UInt8)) : Prop := fs.Pairwise fun f g =>
  Inked (utf8Lossy f.2).toList → Inked (utf8Lossy g.2).toList → parts f.1 ≠ parts g.1

instance (fs : List (List String × List UInt8)) : Decidable (Apart fs) :=
  inferInstanceAs (Decidable (fs.Pairwise _))

section Stored
variable {fs : List (List String × List UInt8)} {c : Chunker} {s : NodeStore} (h : ∀ f ∈ fs, IsPath f.1)
include h

theorem nodup_ids_iff : ((fs.map fun f => document root f.1 f.2).map (·.id)).Nodup ↔
    fs.Pairwise fun f g => parts f.1 ≠ parts g.1 := by
  rw [List.Nodup, List.pairwise_map, List.pairwise_map]
  exact List.Pairwise.iff_of_mem fun hf hg => not_congr (id_eq_iff (h _ hf) (h _ hg))

theorem nodup_nodes_iff (c : Chunker) (root : String) :
    ((c.nodesOfAll (fs.map fun f => document root f.1 f.2)).map (·.id)).Nodup ↔ Apart fs := by
  rw [Chunker.nodesOfAll_ids, Chunker.nodup_chunkIds_iff, List.pairwise_map]
  refine List.Pairwise.iff_of_mem fun hf hg => imp_congr_right fun _ => imp_congr_right fun _ => ?_
  exact not_congr (id_eq_iff (h _ hf) (h _ hg))

/-- The chunks of files are stored, or refused for an id that comes twice. -/
theorem add_nodes_cases
    (hnew : ∀ n ∈ c.nodesOfAll (fs.map fun f => document root f.1 f.2), s.contains n.id = false) :
    (Apart fs → ∃ t, s.add (c.nodesOfAll (fs.map fun f => document root f.1 f.2)) false = .ok t) ∧
      (¬ Apart fs → ∃ n ∈ c.nodesOfAll (fs.map fun f => document root f.1 f.2),
        s.add (c.nodesOfAll (fs.map fun f => document root f.1 f.2)) false =
          .error (.repeated (.nodeInBatch n.id))) := by
  rw [← nodup_nodes_iff h c root]
  exact ⟨fun hnd => ⟨_, NodeStore.add_of_fresh hnd hnew⟩, fun hrep => NodeStore.add_of_repeated hrep hnew⟩

end Stored

theorem parts_of_no_backslash (h : ∀ name ∈ names, '\\' ∉ name.toList) : parts names = names.map String.toList := by
  rw [parts, List.map_eq_flatMap]
  exact List.flatMap_congr fun name hname => pieces_of_not_mem (h name hname)

/-- Where no name holds a backslash, documents have ids of their own and their chunks are stored. -/
theorem stored_of_no_backslash (hnames : files.Unslashed) (hplace : files.locate cwd root = .ok place)
    (hdir : files.isDirectory place = true) (hback : ∀ e ∈ files.entries.toList, ∀ name ∈ e.1, '\\' ∉ name.toList)
    (limit : Option Nat) : ∃ docs, documents files cwd root limit = .ok docs ∧ (docs.map (·.id)).Nodup ∧
      ∀ (c : Chunker) (s : NodeStore), (∀ n ∈ c.nodesOfAll docs, s.contains n.id = false) →
        ∃ t, s.add (c.nodesOfAll docs) false = .ok t := by
  have hread : ∀ f ∈ upTo limit (textFiles files place), IsPath f.1 ∧ ∀ name ∈ f.1, '\\' ∉ name.toList := by
    intro f hf
    have hf := (upTo_sublist limit _).subset hf
    refine ⟨isPath_of_mem_textFiles hnames hf, fun name hname => ?_⟩
    exact hback _ (SortedMap.get?_eq_some_iff.mp (mem_textFiles.mp hf).2.1) name (List.mem_append_right place hname)
  have hpaths := fun f hf => (hread f hf).1
  have hparts : (upTo limit (textFiles files place)).Pairwise fun f g => parts f.1 ≠ parts g.1 := by
    have hnd := (nodup_textFiles files place).sublist ((upTo_sublist limit _).map _)
    refine (List.pairwise_map.mp hnd).imp_of_mem fun {f g} hf hg hne heq => hne ?_
    rw [parts_of_no_backslash (hread f hf).2, parts_of_no_backslash (hread g hg).2] at heq
    exact List.map_injective_iff.mpr (fun _ _ => String.toList_inj.mp) heq
  exact ⟨_, documents_eq_ok hplace hdir limit, (nodup_ids_iff hpaths).mpr hparts,
    fun c s hnew => (add_nodes_cases hpaths hnew).1 (hparts.imp fun hne _ _ => hne)⟩

/-- Every text file below a directory is a document, and each is one only once. The documents have ids of their
own exactly where no two paths have the same parts, and a store takes their chunks exactly where this is so of
the files with a word. -/
theorem text_files_stored_iff (hnames : files.Unslashed) (hplace : files.locate cwd root = .ok place)
    (hdir : files.isDirectory place = true) (limit : Option Nat) :
    (∀ names bytes, (names, bytes) ∈ textFiles files place ↔ names ≠ [] ∧
      files.entries.get? (place ++ names) = some (.file bytes) ∧ isTextName (names.getLast?.getD "") = true) ∧
    ((textFiles files place).map (·.1)).Nodup ∧
    ∃ docs, documents files cwd root limit = .ok docs ∧
      docs = (upTo limit (textFiles files place)).map (fun f => document root f.1 f.2) ∧
      ((docs.map (·.id)).Nodup ↔
        (upTo limit (textFiles files place)).Pairwise fun f g => parts f.1 ≠ parts g.1) ∧
      ∀ (c : Chunker) (s : NodeStore), (∀ n ∈ c.nodesOfAll docs, s.contains n.id = false) →
        (Apart (upTo limit (textFiles files place)) → ∃ t, s.add (c.nodesOfAll docs) false = .ok t) ∧
        (¬ Apart (upTo limit (textFiles files place)) → ∃ n ∈ c.nodesOfAll docs,
          s.add (c.nodesOfAll docs) false = .error (.repeated (.nodeInBatch n.id))) := by
  have hread : ∀ f ∈ upTo limit (textFiles files place), IsPath f.1 := fun f hf =>
    isPath_of_mem_textFiles hnames ((upTo_sublist limit _).subset hf)
  exact ⟨fun names bytes => mem_textFiles, nodup_textFiles files place, _, documents_eq_ok hplace hdir limit, rfl,
    nodup_ids_iff hread, fun c s hnew => add_nodes_cases hread hnew⟩

/-- A file in a directory, and one beside the directory with a backslash in its name. -/
def namesakes (text : String) : FileTree := ⟨.ofList [
  (["a"], .directory),
  (["a", "b.txt"], .file "x".toUTF8.toList),
  (["a\\b.txt"], .file text.toUTF8.toList)]⟩

/-- A file without a word does no harm to another with its id. -/
theorem text_files_stored_iff_namesakes : (namesakes " ").Unslashed ∧ (namesakes " ").locate [] "." = .ok [] ∧
    (namesakes " ").isDirectory [] = true ∧ ∃ docs, documents (namesakes " ") [] "." none = .ok docs ∧
      ¬ (docs.map (·.id)).Nodup ∧ ∀ c : Chunker, ∃ t, ({} : NodeStore).add (c.nodesOfAll docs) false = .ok t := by
  have hnames : (namesakes " ").Unslashed := by decide +kernel
  have hplace : (namesakes " ").locate [] "." = .ok [] := by decide +kernel
  have hapart : Apart (upTo none (textFiles (namesakes " ") [])) := by decide +kernel
  obtain ⟨_, _, docs, hdocs, _, hids, hstored⟩ := text_files_stored_iff hnames hplace rfl none
  refine ⟨hnames, hplace, rfl, docs, hdocs, fun hnd => ?_, fun c => (hstored c {} fun _ _ => rfl).1 hapart⟩
  exact absurd (hids.mp hnd) (by decide +kernel)

/-- Two files with a word each have one id, and their chunks are refused. -/
theorem files_share_an_id : (namesakes "y").Unslashed ∧ ∃ docs, documents (namesakes "y") [] "." none = .ok docs ∧
    docs.map (·.id) = ["a/b.txt", "a/b.txt"] ∧ ∀ c : Chunker, ∃ n ∈ c.nodesOfAll docs,
      ({} : NodeStore).add (c.nodesOfAll docs) false = .error (.repeated (.nodeInBatch n.id)) := by
  have hnames : (namesakes "y").Unslashed := by decide +kernel
  have hplace : (namesakes "y").locate [] "." = .ok [] := by decide +kernel
  have hclash : ¬ Apart (upTo none (textFiles (namesakes "y") [])) := by decide +kernel
  refine ⟨hnames, _, documents_eq_ok hplace rfl none, by decide +kernel, fun c => ?_⟩
  exact (add_nodes_cases (fun f hf => isPath_of_mem_textFiles hnames hf) fun _ _ => rfl).2 hclash

end Directory
end CorpusIndex
