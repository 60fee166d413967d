import Bitemporal.Bytes.Checksum
import Bitemporal.Bytes.Reader
import Bitemporal.Bytes.Utf8
import Bitemporal.Component
import Bitemporal.Database
import Bitemporal.Digits
import Bitemporal.Digraph
import Bitemporal.Distinct
import Bitemporal.Error
import Bitemporal.Field
import Bitemporal.Field.Codec
import Bitemporal.Field.Tuple
import Bitemporal.Files
import Bitemporal.Filter
import Bitemporal.Filter.Statuses
import Bitemporal.History
import Bitemporal.Identities
import Bitemporal.Index
import Bitemporal.Lineage
import Bitemporal.Nid
import Bitemporal.Proofs.Digraph
import Bitemporal.Proofs.Lineage
import Bitemporal.Proofs.Refusal
import Bitemporal.Proofs.Viewpoint.Making
import Bitemporal.Record.Envelope
import Bitemporal.Record.Fault
import Bitemporal.Record.History
import Bitemporal.Record.Stamps
import Bitemporal.Settings
import Bitemporal.Settings.Reading
import Bitemporal.Settings.Writing
import Bitemporal.Stamp
import Bitemporal.StampTable
import Bitemporal.Store
import Bitemporal.Store.Components
import Bitemporal.Store.Transfer
import Bitemporal.Store.Versions
import Bitemporal.Table
import Bitemporal.Taxonomy
import Bitemporal.Taxonomy.Closure
import Bitemporal.Timestamp
import Bitemporal.Toml.Document
import Bitemporal.Toml.Number
import Bitemporal.Toml.Parser
import Bitemporal.Toml.Text
import Bitemporal.Toml.Value
import Bitemporal.Toml.Written
import Bitemporal.Uuid
import Bitemporal.Viewpoint
import Bitemporal.Viewpoint.Rule
import Bitemporal.Viewpoint.TieBreak
import Bitemporal.Viewpoint.Windows
import Bitemporal.Proofs.Viewpoint.Candidates
import Bitemporal.Proofs.Viewpoint.Reference
import Bitemporal.Proofs.Viewpoint.Answers
import Bitemporal.Proofs.Store.Action
import Bitemporal.Proofs.Store.Outcomes
import Bitemporal.Proofs.Store.Operation
import Bitemporal.Proofs.Store.Change
import Bitemporal.Proofs.Store.Past
import Bitemporal.Proofs.Store.Indexing
import Bitemporal.Proofs.Bytes.Reader
import Bitemporal.Proofs.Bytes.Utf8
import Bitemporal.Proofs.Field.Codec
import Bitemporal.Proofs.Identities.Consistency
import Bitemporal.Proofs.Identities.Numbers
import Bitemporal.Proofs.Record.Codec
import Bitemporal.Proofs.StampTable
import Bitemporal.Proofs.Store.RefusedImport
import Bitemporal.Proofs.Store.Replay
import Bitemporal.Proofs.Store.Soundness
import Bitemporal.Proofs.Store.Recording
import Bitemporal.Proofs.Store.Transfer
import Bitemporal.Proofs.Record.Envelope
import Bitemporal.Proofs.History
import Bitemporal.Proofs.Identities.Requests
import Bitemporal.Proofs.Store.Tables
import Bitemporal.Proofs.StampTable.Numbers
import Bitemporal.Proofs.Field.Access
import Bitemporal.Proofs.History.Slots
import Bitemporal.Proofs.Store.Contents
import Bitemporal.Proofs.Store.Events
import Bitemporal.Proofs.Store.Account
import Bitemporal.Proofs.Taxonomy.Edges
import Bitemporal.Proofs.Taxonomy.Parents
import Bitemporal.Proofs.Taxonomy.Past
import Bitemporal.Proofs.Store.Checks
import Bitemporal.Proofs.Store.Handles
import Bitemporal.Proofs.Store.Drafts
import Bitemporal.Proofs.Store.Published
import Bitemporal.Proofs.Taxonomy.Published
import Bitemporal.Proofs.StampTable.Interning
import Bitemporal.Proofs.Store.Renaming
import Bitemporal.Proofs.Store.Interleaving
import Bitemporal.Proofs.Store.Declarations
import Bitemporal.Proofs.Store.Export
import Bitemporal.Proofs.Store.Agreement
import Bitemporal.Proofs.Viewpoint.Widening
import Bitemporal.Proofs.Identities.Ownership
import Bitemporal.Proofs.Store.Requests
import Bitemporal.Proofs.Store.Creation
import Bitemporal.Proofs.Lineage.Cycles
import Bitemporal.Proofs.Lineage.Routes
import Bitemporal.Proofs.Viewpoint.Windows
import Bitemporal.Proofs.Viewpoint.Cycles
import Bitemporal.Proofs.Viewpoint.Flattening
import Bitemporal.Proofs.Bytes.Checksum
import Bitemporal.Proofs.Record.Corruption
import Bitemporal.Proofs.Store.Paths
import Bitemporal.Proofs.Taxonomy.Closure
import Bitemporal.Proofs.Bytes.Extension
import Bitemporal.Proofs.Field.Layout
import Bitemporal.Proofs.Field.Delimitation
import Bitemporal.Proofs.Record.Delimitation
import Bitemporal.Proofs.Viewpoint.Retirement
import Bitemporal.Proofs.Viewpoint.Branching
import Bitemporal.Proofs.StampTable.Restoring
import Bitemporal.Proofs.Identities.Sequences
import Bitemporal.Proofs.Lineage.Ancestors
import Bitemporal.Proofs.Field.Offsets
import Bitemporal.Proofs.Store.Reloading
import Bitemporal.Proofs.Digraph.Walk
import Bitemporal.Proofs.Store.Exhaustion
