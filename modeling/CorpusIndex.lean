import CorpusIndex.Build.Relations
import CorpusIndex.Build.Tree
import CorpusIndex.Bytes
import CorpusIndex.Chunk
import CorpusIndex.Collaborator
import CorpusIndex.CommandLine.Arguments
import CorpusIndex.CommandLine.Failure
import CorpusIndex.CommandLine.Run
import CorpusIndex.Composition
import CorpusIndex.Config
import CorpusIndex.Config.Environment
import CorpusIndex.Config.Toml
import CorpusIndex.Config.Toml.Moment
import CorpusIndex.Config.Toml.Scalar
import CorpusIndex.Config.Value
import CorpusIndex.Corpus
import CorpusIndex.Corpus.Engine
import CorpusIndex.Decimal.Binary
import CorpusIndex.Decimal.Notation
import CorpusIndex.Decimal.Reading
import CorpusIndex.Decimal.Shortest
import CorpusIndex.Digest.Blake3
import CorpusIndex.Digest.XxHash64
import CorpusIndex.Directory
import CorpusIndex.Embedding.Cache
import CorpusIndex.Embedding.Hashed
import CorpusIndex.Embedding.Similarity
import CorpusIndex.Extract.Keywords
import CorpusIndex.Extract.Triplets
import CorpusIndex.Failure
import CorpusIndex.Files
import CorpusIndex.Groups
import CorpusIndex.Index
import CorpusIndex.Index.Forest
import CorpusIndex.Index.Format
import CorpusIndex.Index.KeywordTable
import CorpusIndex.Index.NodeList
import CorpusIndex.Index.Postings
import CorpusIndex.Index.RelationGraph
import CorpusIndex.Index.VectorMap
import CorpusIndex.Json.Basic
import CorpusIndex.Json.Decode
import CorpusIndex.Json.Lexeme
import CorpusIndex.Json.Number
import CorpusIndex.Json.Printer
import CorpusIndex.Json.Reader
import CorpusIndex.Json.Shape
import CorpusIndex.Json.Skip
import CorpusIndex.Main
import CorpusIndex.Metadata
import CorpusIndex.Node
import CorpusIndex.Node.Format
import CorpusIndex.NodeStore
import CorpusIndex.Path
import CorpusIndex.Postprocess
import CorpusIndex.Proofs.Action
import CorpusIndex.Proofs.Answers.Antichain
import CorpusIndex.Proofs.Answers.Corruption
import CorpusIndex.Proofs.Answers.Coverage
import CorpusIndex.Proofs.Answers.Descent
import CorpusIndex.Proofs.Answers.Expansion
import CorpusIndex.Proofs.Answers.Following
import CorpusIndex.Proofs.Answers.Keywords
import CorpusIndex.Proofs.Answers.Neighbours
import CorpusIndex.Proofs.Answers.Picks
import CorpusIndex.Proofs.Answers.Sources
import CorpusIndex.Proofs.Chains
import CorpusIndex.Proofs.CommandLine.Arguments
import CorpusIndex.Proofs.Composition
import CorpusIndex.Proofs.Corpus.Commutation
import CorpusIndex.Proofs.Corpus.Deletion
import CorpusIndex.Proofs.Corpus.Format
import CorpusIndex.Proofs.Corpus.Frame
import CorpusIndex.Proofs.Corpus.Persistence
import CorpusIndex.Proofs.Corpus.Stranded
import CorpusIndex.Proofs.DocumentOrder
import CorpusIndex.Proofs.Embedding.Cache
import CorpusIndex.Proofs.Embedding.History
import CorpusIndex.Proofs.Embedding.Ranking
import CorpusIndex.Proofs.Except
import CorpusIndex.Proofs.Files
import CorpusIndex.Proofs.Forest.Acceptance
import CorpusIndex.Proofs.Forest.Ancestry
import CorpusIndex.Proofs.Forest.Checked
import CorpusIndex.Proofs.Forest.Deletion
import CorpusIndex.Proofs.Forest.Edits
import CorpusIndex.Proofs.Forest.Graft
import CorpusIndex.Proofs.Forest.Insertion
import CorpusIndex.Proofs.Forest.Lineage
import CorpusIndex.Proofs.Forest.Positions
import CorpusIndex.Proofs.Forest.Pruning
import CorpusIndex.Proofs.Forest.Removal
import CorpusIndex.Proofs.Forest.Siblings
import CorpusIndex.Proofs.Forest.Splice
import CorpusIndex.Proofs.Forest.Validation
import CorpusIndex.Proofs.Forest.Walks
import CorpusIndex.Proofs.Forest.WellFormed
import CorpusIndex.Proofs.Grove.Building
import CorpusIndex.Proofs.Grove.Extension
import CorpusIndex.Proofs.Grove.Insertion
import CorpusIndex.Proofs.Grove.Layers
import CorpusIndex.Proofs.Grove.Layout
import CorpusIndex.Proofs.Grove.Levels
import CorpusIndex.Proofs.Grove.Links
import CorpusIndex.Proofs.Grove.Raising
import CorpusIndex.Proofs.Grove.Run
import CorpusIndex.Proofs.Grove.Sources
import CorpusIndex.Proofs.Grove.Steps
import CorpusIndex.Proofs.Grove.Summaries
import CorpusIndex.Proofs.Grove.Tended
import CorpusIndex.Proofs.Grove.Tiers
import CorpusIndex.Proofs.Grove.Width
import CorpusIndex.Proofs.Index.Commutation
import CorpusIndex.Proofs.Index.Deletion
import CorpusIndex.Proofs.Index.Format
import CorpusIndex.Proofs.Index.Frame
import CorpusIndex.Proofs.Indexing.Keywords
import CorpusIndex.Proofs.Indexing.Relations
import CorpusIndex.Proofs.Indexing.Undone
import CorpusIndex.Proofs.Indexing.Vectors
import CorpusIndex.Proofs.Ingest.Chunks
import CorpusIndex.Proofs.Ingest.Cutting
import CorpusIndex.Proofs.Ingest.Directory
import CorpusIndex.Proofs.Ingest.Packing
import CorpusIndex.Proofs.Ingest.ReadingOrder
import CorpusIndex.Proofs.Ingest.Root
import CorpusIndex.Proofs.Ingest.Run
import CorpusIndex.Proofs.Ingest.Vectors
import CorpusIndex.Proofs.Json.Decode
import CorpusIndex.Proofs.Json.Lexeme
import CorpusIndex.Proofs.Json.Number
import CorpusIndex.Proofs.Json.NumberText
import CorpusIndex.Proofs.Json.Reader
import CorpusIndex.Proofs.Node.Format
import CorpusIndex.Proofs.NodeStore
import CorpusIndex.Proofs.Postings
import CorpusIndex.Proofs.Prompt
import CorpusIndex.Proofs.Relations.Embeddings
import CorpusIndex.Proofs.Relations.Records
import CorpusIndex.Proofs.Relations.Run
import CorpusIndex.Proofs.Replies.Keywords
import CorpusIndex.Proofs.Replies.Numbers
import CorpusIndex.Proofs.Replies.Triplets
import CorpusIndex.Proofs.SortedMap
import CorpusIndex.Proofs.Text.Sentences
import CorpusIndex.Proofs.Text.Utf8
import CorpusIndex.Proofs.Text.Words
import CorpusIndex.Proofs.VectorMap
import CorpusIndex.Proofs.Vectors.Batches
import CorpusIndex.Proofs.Vectors.Calls
import CorpusIndex.Proofs.Vectors.Edits
import CorpusIndex.Proofs.Vectors.Format
import CorpusIndex.Proofs.Vectors.Mirror
import CorpusIndex.Proofs.Vectors.Renaming
import CorpusIndex.Proofs.Vectors.Retrieval
import CorpusIndex.Proofs.Vectors.Run
import CorpusIndex.Proofs.Vectors.Searches
import CorpusIndex.Proofs.Vectors.Tracking
import CorpusIndex.Retrieval
import CorpusIndex.Retrieve.Index
import CorpusIndex.Retrieve.Keywords
import CorpusIndex.Retrieve.List
import CorpusIndex.Retrieve.Tree
import CorpusIndex.Retrieve.Vectors
import CorpusIndex.Scripted
import CorpusIndex.Scripted.Format
import CorpusIndex.Selection
import CorpusIndex.Settings
import CorpusIndex.Settings.Format
import CorpusIndex.SortedMap
import CorpusIndex.Summary
import CorpusIndex.Text.Alphanumeric
import CorpusIndex.Text.Blank
import CorpusIndex.Text.CaseTables
import CorpusIndex.Text.LetterCase
import CorpusIndex.Text.Search
import CorpusIndex.Text.Sentences
import CorpusIndex.VectorStore
