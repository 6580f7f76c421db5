import CorpusIndex.CommandLine.Run
import CorpusIndex.Proofs.Action
import CorpusIndex.Proofs.Corpus.Format
import CorpusIndex.Proofs.Files

/-!
# Corpora persisted and loaded

A corpus that is persisted in a directory is loaded from it again. The files are written one after
another, each under a name of its own, so a later one leaves the texts of the earlier ones alone.
-/
namespace CorpusIndex

namespace Command
variable {c : Corpus} {s : Shell} {t : FileTree} {place : List String} {directory name path text : String}
  {fs : List (String × String)} {wrap : FileFault → CommandFailure}

/-! ### Files written one after another -/

theorem onFiles_run {f : FileTree → List String → Except FileFault FileTree}
    (h : f s.files s.cwd = .ok t) : (onFiles wrap f).run s = (.ok (), { s with files := t }) := by
  have hget : (get : Command Shell).run s = (.ok s, s) := rfl
  rw [onFiles, run_bind, hget]
  simp only [h]
  rfl

/-- The path of a directory leads to a directory. -/
def LeadsTo (s : Shell) (directory : String) (place : List String) : Prop :=
  s.files.walk (Path.start s.cwd directory) (Path.names directory) = .ok place ∧
    s.files.isDirectory place = true

namespace LeadsTo

theorem locate_join (h : LeadsTo s directory place) (hname : Path.IsEntry name) :
    s.files.locate s.cwd (Path.join directory name) = .ok (place ++ [name]) :=
  FileTree.locate_join h.1 h.2 hname

/-- A file can be written under a name that no directory has. -/
theorem writeAt (h : LeadsTo s directory place) (hname : Path.IsEntry name)
    (hfree : s.files.isDirectory (place ++ [name]) = false) (text : String) :
    ∃ t, s.files.writeText (place ++ [name]) text = .ok t ∧
      s.files.writeAt s.cwd (Path.join directory name) text = .ok t := by
  have hdir : s.files.isDirectory (place ++ [name]).dropLast = true := by
    rw [List.dropLast_concat]
    exact h.2
  have hwrite := FileTree.write_of_free text.toUTF8.toList hfree hdir
  refine ⟨_, hwrite, ?_⟩
  rw [FileTree.writeAt, h.locate_join hname]
  exact hwrite

theorem of_write {bytes : List UInt8} {other : List String} (h : LeadsTo s directory place)
    (hwrite : s.files.write other bytes = .ok t) : LeadsTo { s with files := t } directory place := by
  have hsame := FileTree.isDirectory_write hwrite
  exact ⟨FileTree.walk_mono h.1 fun p hp => (hsame p).trans hp, (hsame place).trans h.2⟩

end LeadsTo

/-- The files that are written hold their texts at the end, and other files of the directory the texts
they held before. -/
theorem writeTexts_run (hdir : LeadsTo s directory place) (hnames : ∀ f ∈ fs, Path.IsEntry f.1)
    (hnd : (fs.map (·.1)).Nodup) (hfree : ∀ f ∈ fs, s.files.isDirectory (place ++ [f.1]) = false) :
    ∃ t, (fs.forM fun f => writeText wrap (Path.join directory f.1) f.2).run s =
        (.ok (), { s with files := t }) ∧
      (∀ f ∈ fs, t.textAt s.cwd (Path.join directory f.1) = .ok f.2) ∧
      ∀ name text, Path.IsEntry name → name ∉ fs.map (·.1) →
        s.files.textAt s.cwd (Path.join directory name) = .ok text →
          t.textAt s.cwd (Path.join directory name) = .ok text := by
  induction fs generalizing s with
  | nil => exact ⟨s.files, rfl, by simp, fun _ _ _ _ h => h⟩
  | cons f fs ih =>
      obtain ⟨hf, hnamesRest⟩ := List.forall_mem_cons.mp hnames
      obtain ⟨hfreeHead, hfreeRest⟩ := List.forall_mem_cons.mp hfree
      obtain ⟨hnew, hndRest⟩ := List.nodup_cons.mp hnd
      obtain ⟨t₁, hwrite, hat⟩ := hdir.writeAt hf hfreeHead f.2
      have hdir₁ : LeadsTo { s with files := t₁ } directory place := hdir.of_write hwrite
      have hfree₁ : ∀ g ∈ fs, t₁.isDirectory (place ++ [g.1]) = false :=
        fun g hg => (FileTree.isDirectory_write hwrite _).trans (hfreeRest g hg)
      have htext₁ : t₁.textAt s.cwd (Path.join directory f.1) = .ok f.2 :=
        FileTree.textAt_eq_ok.mpr ⟨_, hdir₁.locate_join hf, FileTree.readText_writeText hwrite⟩
      obtain ⟨t, hrun, hwritten, hkept⟩ := ih hdir₁ hnamesRest hndRest hfree₁
      refine ⟨t, ?_, ?_, ?_⟩
      · have hhead : (writeText wrap (Path.join directory f.1) f.2).run s =
            (.ok (), { s with files := t₁ }) := onFiles_run hat
        rw [List.forM, run_bind, hhead]
        exact hrun
      · exact List.forall_mem_cons.mpr ⟨hkept f.1 f.2 hf hnew htext₁, hwritten⟩
      · intro name text hname hother htext
        obtain ⟨hne, hotherRest⟩ := not_or.mp (mt List.mem_cons.mpr hother)
        refine hkept name text hname hotherRest ?_
        obtain ⟨p, hp, hread⟩ := FileTree.textAt_eq_ok.mp htext
        cases (hdir.locate_join hname).symm.trans hp
        have hplace : place ++ [name] ≠ place ++ [f.1] := by simpa using hne
        exact FileTree.textAt_eq_ok.mpr
          ⟨_, hdir₁.locate_join hname, FileTree.readText_write_of_ne hwrite hplace hread⟩

/-! ### Persisting and loading -/

theorem persisted_eq_ok (h : s.read path = .ok text) : persisted s path = .ok text := by
  rw [persisted, h]

theorem isEntry_storeFile : Path.IsEntry Corpus.storeFile := ⟨by decide, by decide, by decide, by decide⟩

theorem isEntry_indicesFile : Path.IsEntry Corpus.indicesFile :=
  ⟨by decide, by decide, by decide, by decide⟩

theorem isEntry_files : ∀ f ∈ c.files, Path.IsEntry f.1 := by
  intro f hf
  rcases List.mem_cons.mp hf with rfl | hf
  · exact isEntry_storeFile
  · cases List.mem_singleton.mp hf
    exact isEntry_indicesFile

theorem files_nodup : (c.files.map (·.1)).Nodup := by
  have hnames : c.files.map (·.1) = [Corpus.storeFile, Corpus.indicesFile] := rfl
  rw [hnames]
  decide

/-- A corpus that checks out is persisted in every directory that can be made, unless a directory stands
where a file is to be, and what is loaded from there is the same corpus. -/
theorem loadCorpus_persist (valid : c.validate = .ok ()) (words : c.InWords) (finite : c.Finite)
    (texts : c.FiniteReadBack) (made : s.files.makeDirectoriesAt s.cwd directory = .ok t)
    (free : ∀ f ∈ c.files, ∀ p, t.locate s.cwd (Path.join directory f.1) = .ok p → t.isDirectory p = false) :
    ∃ files, (persist c directory).run s = (.ok (), { s with files }) ∧
      loadCorpus { s with files } directory = .ok c := by
  obtain ⟨place, hdir⟩ : ∃ place, LeadsTo { s with files := t } directory place :=
    FileTree.leadsToDirectory_iff.mp (FileTree.makeAlong_leads made)
  have hfree : ∀ f ∈ c.files, t.isDirectory (place ++ [f.1]) = false :=
    fun f hf => free f hf _ (hdir.locate_join (isEntry_files f hf))
  obtain ⟨files, hrun, hwritten, _⟩ := writeTexts_run hdir isEntry_files files_nodup hfree
  refine ⟨files, ?_, ?_⟩
  · have hmade : (makeDirectories (fun fault => .failure (.file fault)) directory).run s =
        (.ok (), { s with files := t }) := onFiles_run made
    rw [persist, run_bind, hmade]
    exact hrun
  · have hstore : persisted { s with files } (Path.join directory Corpus.storeFile) =
        .ok c.store.toJson.pretty :=
      persisted_eq_ok (hwritten (Corpus.storeFile, c.store.toJson.pretty) (by simp [Corpus.files]))
    have hindices : persisted { s with files } (Path.join directory Corpus.indicesFile) =
        .ok c.indices.toJson.pretty :=
      persisted_eq_ok (hwritten (Corpus.indicesFile, c.indices.toJson.pretty) (by simp [Corpus.files]))
    rw [loadCorpus, hstore, hindices]
    exact Corpus.ofTexts_pretty valid words finite texts

/-! ### A corpus with every kind of structure -/

/-- A chunk with a value in every field. -/
def quotation : Node where
  id := "a"
  text := "\"a\"\n\u0001"
  embedding := some [0.1]
  metadata := .ofList [("bool", .bool true), ("int", .int (-3)), ("real", .real 0.5), ("text", .text "3")]
  links := .ofList [(.source, ["A"]), (.previous, []), (.next, ["b"]), (.parent, ["s"]), (.child, ["b"])]
  document := some "A"
  index := some "t"

/-- The two positions are ordered otherwise as texts than as numbers. -/
def numbered : Forest where
  id := "t"
  summary := some "ü"
  nodes := .ofList [(2, "a"), (10, "s")]
  roots := .ofList [(10, "s")]
  positions := .ofList [("a", 2), ("s", 10)]
  children := .ofList [("s", .ofElems [2])]

def singleVector : VectorMap where
  id := "v"
  nodes := .ofList [("a", "a")]
  documents := .ofList [("A", ["a"])]
  embeddings := [("a", [0.1])]

def singleFact : RelationGraph where
  id := "g"
  table := .ofList [("x", .ofElems ["a"]), ("y", .ofElems ["a"])]
  relations := .ofList [("x", [("is", "y")])]
  embeddings := .ofList [("(x, is, y)", [0.1])]

def everyStructure : List Index :=
  [.relations singleFact, .keywordTable { id := "k", table := .ofList [("\\", .ofElems ["a", "s"])] },
    .list { id := "l", nodes := ["s", "a"] }, .tree numbered, .vectors singleVector]

def everyKind : Corpus where
  store := ⟨.ofList [("a", quotation), ("s", { id := "s", text := "" })]⟩
  indices := ⟨.ofList (everyStructure.map fun i => (i.id, i))⟩

theorem singleReadsBack_tenth : Json.SingleReadsBack 0.1 := ⟨['0', '.', '1'], .real 0.1, rfl, rfl, rfl⟩

theorem doubleReadsBack_half : Json.DoubleReadsBack 0.5 := ⟨['0', '.', '5'], .real 0.5, rfl, rfl, rfl⟩

section EveryKind
variable {id key : String} {n : Node} {v : MetadataValue} {i : Index} {x : Float} {y : Float32}

theorem nodes_everyKind (h : everyKind.store.nodes.get? id = some n) :
    n ∈ [quotation, { id := "s", text := "" }] := SortedMap.mem_values.mpr ⟨id, h⟩

theorem indices_everyKind (h : everyKind.indices.indices.get? id = some i) : i ∈ everyStructure :=
  SortedMap.mem_values.mpr ⟨id, h⟩

theorem metadata_everyKind (h : everyKind.store.nodes.get? id = some n) (hv : n.metadata.get? key = some v) :
    v ∈ [.bool true, .int (-3), .real 0.5, .text "3"] := by
  rcases List.mem_cons.mp (nodes_everyKind h) with rfl | hn
  · exact SortedMap.mem_values.mpr ⟨key, hv⟩
  · cases List.mem_singleton.mp hn
    cases hv

theorem holdsDouble_everyKind (h : everyKind.HoldsDouble x) : x = 0.5 := by
  obtain ⟨id, n, key, hn, hx⟩ := h
  simpa using metadata_everyKind hn hx

theorem holdsSingle_everyKind (h : everyKind.HoldsSingle y) : y = 0.1 := by
  cases h with
  | node hn he hy =>
      rcases List.mem_cons.mp (nodes_everyKind hn) with rfl | hn
      · cases he
        exact List.mem_singleton.mp hy
      · cases List.mem_singleton.mp hn
        cases he
  | vectors hm he hy =>
      have hin := indices_everyKind hm
      simp only [everyStructure, List.mem_cons, List.not_mem_nil, reduceCtorEq, Index.vectors.injEq,
        false_or, or_false] at hin
      subst hin
      cases List.mem_singleton.mp he
      exact List.mem_singleton.mp hy
  | relations hg he hy =>
      have hin := indices_everyKind hg
      simp only [everyStructure, List.mem_cons, List.not_mem_nil, reduceCtorEq, Index.relations.injEq,
        or_false] at hin
      subst hin
      have hvalues := List.mem_singleton.mp (SortedMap.mem_values.mpr ⟨_, he⟩)
      subst hvalues
      exact List.mem_singleton.mp hy

end EveryKind

theorem finite_everyKind : everyKind.Finite where
  doubles x hx := by
    rw [holdsDouble_everyKind hx]
    rfl
  singles x hx := by
    rw [holdsSingle_everyKind hx]
    rfl

theorem finiteReadBack_everyKind : everyKind.FiniteReadBack where
  doubles x hx _ := by
    rw [holdsDouble_everyKind hx]
    exact doubleReadsBack_half
  singles x hx _ := by
    rw [holdsSingle_everyKind hx]
    exact singleReadsBack_tenth

theorem readable_numbered : numbered.Readable where
  nodes p id h := by
    have hin : p ∈ numbered.nodes.keys := SortedMap.mem_keys.mpr ⟨id, h⟩
    have hall : ∀ q ∈ numbered.nodes.keys, q ≤ Decimal.maxWord := by decide
    exact hall p hin
  roots p id h := by
    have hin : p ∈ numbered.roots.keys := SortedMap.mem_keys.mpr ⟨id, h⟩
    have hall : ∀ q ∈ numbered.roots.keys, q ≤ Decimal.maxWord := by decide
    exact hall p hin
  positions id p h := by
    have hin : p ∈ numbered.positions.values := SortedMap.mem_values.mpr ⟨id, h⟩
    have hall : ∀ q ∈ numbered.positions.values, q ≤ Decimal.maxWord := by decide
    exact hall p hin
  children id below h := by
    have hin : below ∈ numbered.children.values := SortedMap.mem_values.mpr ⟨id, h⟩
    have hall : ∀ b ∈ numbered.children.values, ∀ q ∈ b.elems, q ≤ Decimal.maxWord := by decide
    exact hall below hin

theorem inWords_everyKind : everyKind.InWords where
  metadata id n key k hn hk := by
    have hin := metadata_everyKind hn hk
    simp only [List.mem_cons, List.not_mem_nil, reduceCtorEq, MetadataValue.int.injEq, false_or,
      or_false] at hin
    subst hin
    exact ⟨by decide, by decide⟩
  trees id f hf := by
    have hin := indices_everyKind hf
    simp only [everyStructure, List.mem_cons, List.not_mem_nil, reduceCtorEq, Index.tree.injEq, false_or,
      or_false] at hin
    subst hin
    exact readable_numbered

/-- In a tree without any entries, below its root. -/
theorem loadCorpus_persist_everyKind :
    ∃ files, (persist everyKind "out").run { files := {}, cwd := [], env := ∅ } =
        (.ok (), { files, cwd := [], env := ∅ }) ∧
      loadCorpus { files, cwd := [], env := ∅ } "out" = .ok everyKind := by
  let made : FileTree := ⟨.ofList [(["out"], .directory)]⟩
  have hmade : FileTree.makeDirectoriesAt {} [] "out" = .ok made := by
    rw [FileTree.makeDirectoriesAt, FileTree.makeAlong]
    rfl
  refine loadCorpus_persist rfl inWords_everyKind finite_everyKind finiteReadBack_everyKind hmade ?_
  intro f hf p hp
  rcases List.mem_cons.mp hf with rfl | hf
  · cases hp
    rfl
  · cases List.mem_singleton.mp hf
    cases hp
    rfl

end Command
end CorpusIndex
