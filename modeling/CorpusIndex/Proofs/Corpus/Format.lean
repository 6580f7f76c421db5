import CorpusIndex.Proofs.Corpus.Stranded
import CorpusIndex.Proofs.Index.Format

/-!
# Corpora read back

The texts of both files give the store and the structures back, as far as the numbers in them are
written so that they can be read again. Whole numbers are if they fit their words; that the texts of
real numbers stand for them is left to the caller.
-/
namespace CorpusIndex

open Json

variable {depth : Nat}

/-! ### The store -/

namespace NodeStore
variable {s : NodeStore}

/-- Everything in the nodes is written so that it can be read again. -/
def Readable (s : NodeStore) : Prop := ∀ id n, s.nodes.get? id = some n → n.Readable

theorem Readable.of_mem (h : s.Readable) : ∀ e ∈ s.nodes.toList, e.2.Readable :=
  fun e he => h e.1 e.2 (SortedMap.get?_eq_some_iff.mpr he)

theorem legible (h : s.Readable) : Legible (depth + 5) shape s.toJson := by
  refine Legible.object fun f hf => ⟨.map Node.shape, ?_, ?_⟩
  · cases List.mem_singleton.mp hf
    rfl
  · cases List.mem_singleton.mp hf
    refine Legible.object fun f hf => ⟨Node.shape, rfl, ?_⟩
    obtain ⟨e, he, rfl⟩ := List.mem_map.mp hf
    exact Node.legible (h.of_mem e he)

theorem ofJson_toJson (h : s.Readable) : ofJson s.toJson = .ok s := by
  have hdocs : asStringMap Node.ofJson (s.nodes.toJson Node.toJson) = .ok s.nodes :=
    asStringMap_toJson fun e he => Node.ofJson_toJson (h.of_mem e he)
  have hrecord : record ["docs"] s.toJson = .ok [("docs", s.nodes.toJson Node.toJson)] := rfl
  rw [ofJson, hrecord, ok_bind, Fields.required, List.lookup_cons_self]
  simp only [hdocs]
  rfl

theorem decodeText_toJson (h : s.Readable) : decodeText shape ofJson s.toJson.pretty = .ok s :=
  decodeText_pretty (legible h) (ofJson_toJson h)

end NodeStore

/-! ### The structures -/

namespace IndexStore
variable {s : IndexStore}

/-- Everything in the structures is written so that it can be read again. -/
def Readable (s : IndexStore) : Prop := ∀ id i, s.indices.get? id = some i → i.Readable

theorem Readable.of_mem (h : s.Readable) : ∀ e ∈ s.indices.toList, e.2.Readable :=
  fun e he => h e.1 e.2 (SortedMap.get?_eq_some_iff.mpr he)

theorem legible (h : s.Readable) : Legible (depth + 6) shape s.toJson := by
  refine Legible.object fun f hf => ⟨.map .any, ?_, ?_⟩
  · cases List.mem_singleton.mp hf
    rfl
  · cases List.mem_singleton.mp hf
    refine Legible.object fun f hf => ⟨.any, rfl, ?_⟩
    obtain ⟨e, he, rfl⟩ := List.mem_map.mp hf
    exact Index.legible (h.of_mem e he)

theorem ofJson_toJson (h : s.Readable) : ofJson s.toJson = .ok s := by
  let check (structs : Json) : Decoded Unit := do let _ ← asStringMap Index.ofJson structs
  have hstructs : asStringMap Index.ofJson (s.indices.toJson Index.toJson) = .ok s.indices :=
    asStringMap_toJson fun e he => Index.ofJson_toJson (h.of_mem e he)
  have hcheck : check (s.indices.toJson Index.toJson) = .ok () := by
    simp only [check, hstructs]
    rfl
  have hpresent : s.toJson = .present [("structs", some (s.indices.toJson Index.toJson))] := rfl
  have hrecord : record ["structs"] s.toJson (fun _ => check) =
      .ok [("structs", s.indices.toJson Index.toJson)] := by
    rw [hpresent]
    exact record_present (by simp) (fun _ h => h) (.cons hcheck .nil)
  rw [ofJson, hrecord, ok_bind, Fields.required, List.lookup_cons_self]
  simp only [hstructs]
  rfl

theorem decodeText_toJson (h : s.Readable) : decodeText shape ofJson s.toJson.pretty = .ok s :=
  decodeText_pretty (legible h) (ofJson_toJson h)

end IndexStore

/-! ### Numbers of a corpus -/

namespace Corpus
variable {c : Corpus}

/-- A real number among the metadata. -/
def HoldsDouble (c : Corpus) (x : Float) : Prop :=
  ∃ id n key, c.store.nodes.get? id = some n ∧ n.metadata.get? key = some (.real x)

/-- A component of an embedding of a node or of a structure. -/
inductive HoldsSingle (c : Corpus) (x : Float32) : Prop
  | node {id n e} (stored : c.store.nodes.get? id = some n) (embedded : n.embedding = some e) (mem : x ∈ e)
  | vectors {id m e} (kept : c.indices.indices.get? id = some (.vectors m)) (embedded : e ∈ m.embeddings)
      (mem : x ∈ e.2)
  | relations {id g text e} (kept : c.indices.indices.get? id = some (.relations g))
      (embedded : g.embeddings.get? text = some e) (mem : x ∈ e)

/-- Whole numbers fit the words they are kept in: signed ones in metadata, positions in trees. -/
structure InWords (c : Corpus) : Prop where
  metadata : ∀ id n key k, c.store.nodes.get? id = some n → n.metadata.get? key = some (.int k) → Signed k
  trees : ∀ id f, c.indices.indices.get? id = some (.tree f) → f.Readable

/-- Real numbers are finite. -/
structure Finite (c : Corpus) : Prop where
  doubles : ∀ x, c.HoldsDouble x → x.isFinite = true
  singles : ∀ x, c.HoldsSingle x → x.isFinite = true

/-- The text of a finite number stands for the number. -/
structure FiniteReadBack (c : Corpus) : Prop where
  doubles : ∀ x, c.HoldsDouble x → x.isFinite = true → DoubleReadsBack x
  singles : ∀ x, c.HoldsSingle x → x.isFinite = true → SingleReadsBack x

theorem readable_store (words : c.InWords) (finite : c.Finite) (texts : c.FiniteReadBack) :
    c.store.Readable := by
  intro id n hn
  constructor
  · intro e he x hx
    have hheld : c.HoldsSingle x := .node hn he hx
    exact texts.singles x hheld (finite.singles x hheld)
  · intro key v hv
    cases v with
    | int k => exact words.metadata id n key k hn hv
    | real x =>
        have hheld : c.HoldsDouble x := ⟨id, n, key, hn, hv⟩
        exact texts.doubles x hheld (finite.doubles x hheld)
    | bool => trivial
    | text => trivial

theorem readable_indices (words : c.InWords) (finite : c.Finite) (texts : c.FiniteReadBack) :
    c.indices.Readable := by
  have hsingle : ∀ x, c.HoldsSingle x → SingleReadsBack x :=
    fun x hx => texts.singles x hx (finite.singles x hx)
  intro id i hi
  cases i with
  | tree f => exact words.trees id f hi
  | vectors m => exact fun e he x hx => hsingle x (.vectors hi he hx)
  | relations g => exact fun text e he x hx => hsingle x (.relations hi he hx)
  | keywordTable => trivial
  | list => trivial

/-- A corpus that checks out is loaded from the texts of its files. -/
theorem ofTexts_pretty (valid : c.validate = .ok ()) (words : c.InWords) (finite : c.Finite)
    (texts : c.FiniteReadBack) :
    ofTexts (.ok c.store.toJson.pretty) (.ok c.indices.toJson.pretty) = .ok c :=
  (ofTexts_iff (NodeStore.decodeText_toJson (readable_store words finite texts))
    (IndexStore.decodeText_toJson (readable_indices words finite texts))).mpr valid

end Corpus
end CorpusIndex
