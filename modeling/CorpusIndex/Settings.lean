import CorpusIndex.Failure
import CorpusIndex.Decimal.Binary
import CorpusIndex.Decimal.Notation

/-!
# Settings

What a user can set, and which values are accepted.
-/
namespace CorpusIndex

structure ChunkingSettings where
  maxTokens : Nat := 256
  overlap : Float32 := 0.2
  deriving DecidableEq, Inhabited, Repr

structure IndexSettings where
  numChildren : Nat := 10
  maxKeywordsPerChunk : Nat := 10
  embedDim : Nat := 256
  embedBatchSize : Nat := 64
  showProgress : Bool := true
  deriving DecidableEq, Inhabited, Repr

structure RetrievalSettings where
  topK : Nat := 2
  branchFactor : Nat := 1
  maxKeywordsPerQuery : Nat := 10
  chunksPerQuery : Nat := 10
  deriving DecidableEq, Inhabited, Repr

structure Settings where
  chunking : ChunkingSettings := {}
  index : IndexSettings := {}
  retrieval : RetrievalSettings := {}
  persistDir : String := "./storage"
  deriving DecidableEq, Inhabited, Repr

namespace Settings

/-- The share of words that neighbouring windows have in common lies in `[0, 1)`. -/
def overlapInRange (x : Float32) : Bool := (0.0 : Float32) ≤ x && x < (1.0 : Float32)

/-- The first setting that is out of range. -/
def refusal? (s : Settings) : Option Misuse :=
  if s.chunking.maxTokens = 0 then some .zeroTokenBudget
  else if !overlapInRange s.chunking.overlap then
    some (.overlapSettingOutOfRange
      (String.ofList (Decimal.plain.write (Decimal.partsOfFloat32 s.chunking.overlap))))
  else if s.index.numChildren < 2 then some .childrenSetting
  else if s.index.embedDim = 0 then some .dimensionSetting
  else if s.retrieval.branchFactor = 0 then some .branchSetting
  else none

def validate (s : Settings) : Except Failure Unit :=
  match s.refusal? with
  | some m => .error (.invalid m)
  | none => .ok ()

end Settings
end CorpusIndex
