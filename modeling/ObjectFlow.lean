import ObjectFlow.Aggregates
import ObjectFlow.Assignments
import ObjectFlow.Base.Chain
import ObjectFlow.Base.Concurs
import ObjectFlow.Base.Descent
import ObjectFlow.Base.Differences
import ObjectFlow.Base.Dispenser
import ObjectFlow.Base.Feed
import ObjectFlow.Base.Filling
import ObjectFlow.Base.HalfEven
import ObjectFlow.Base.Integer
import ObjectFlow.Base.Interval
import ObjectFlow.Base.Introduced
import ObjectFlow.Base.Journal
import ObjectFlow.Base.Lockstep
import ObjectFlow.Base.Mirror
import ObjectFlow.Base.Noted
import ObjectFlow.Base.Ordered
import ObjectFlow.Base.Paging
import ObjectFlow.Base.Postings
import ObjectFlow.Base.Program
import ObjectFlow.Base.Ranking
import ObjectFlow.Base.Ranks
import ObjectFlow.Base.Renaming
import ObjectFlow.Base.Run
import ObjectFlow.Base.Shared
import ObjectFlow.Base.Table
import ObjectFlow.Base.Tally
import ObjectFlow.Base.Turns
import ObjectFlow.Base.TwoRuns
import ObjectFlow.Base.Watched
import ObjectFlow.Batch
import ObjectFlow.Calendar
import ObjectFlow.Carried
import ObjectFlow.Checked
import ObjectFlow.Checking
import ObjectFlow.Checks
import ObjectFlow.Chunked
import ObjectFlow.Civil
import ObjectFlow.Columns
import ObjectFlow.Commit
import ObjectFlow.Constraints
import ObjectFlow.Contradictions
import ObjectFlow.Crossing
import ObjectFlow.Decide
import ObjectFlow.Decimal
import ObjectFlow.Durations
import ObjectFlow.Effects
import ObjectFlow.Equality
import ObjectFlow.Erase
import ObjectFlow.ErasedImport
import ObjectFlow.Eval
import ObjectFlow.Exact
import ObjectFlow.Exclusions
import ObjectFlow.Export
import ObjectFlow.ExportBlind
import ObjectFlow.Expr
import ObjectFlow.Families
import ObjectFlow.FeedPage
import ObjectFlow.FeedRun
import ObjectFlow.Feeding
import ObjectFlow.Fit
import ObjectFlow.FittedRows
import ObjectFlow.FlowData
import ObjectFlow.GroupValues
import ObjectFlow.Held
import ObjectFlow.History
import ObjectFlow.ImportRounds
import ObjectFlow.Importing
import ObjectFlow.Inlining
import ObjectFlow.Invariants
import ObjectFlow.Journaled
import ObjectFlow.Keyed
import ObjectFlow.Levels
import ObjectFlow.Lexing
import ObjectFlow.Linking
import ObjectFlow.LogReplays
import ObjectFlow.Manner
import ObjectFlow.MannerAlike
import ObjectFlow.Model
import ObjectFlow.Named
import ObjectFlow.Narrowing
import ObjectFlow.Nested
import ObjectFlow.Nesting
import ObjectFlow.NumberText
import ObjectFlow.Operations
import ObjectFlow.Operators
import ObjectFlow.Parse
import ObjectFlow.ParseEnds
import ObjectFlow.ParsersAgree
import ObjectFlow.ParsersMirror
import ObjectFlow.Periods
import ObjectFlow.Personal
import ObjectFlow.PortSound
import ObjectFlow.Ported
import ObjectFlow.Proposals
import ObjectFlow.Propose
import ObjectFlow.Pruning
import ObjectFlow.Quantities
import ObjectFlow.Query
import ObjectFlow.QueryExact
import ObjectFlow.QueryPages
import ObjectFlow.Rational
import ObjectFlow.Reach
import ObjectFlow.Recording
import ObjectFlow.Reference
import ObjectFlow.Renames
import ObjectFlow.Rendering
import ObjectFlow.Replay
import ObjectFlow.Request
import ObjectFlow.RereadAlone
import ObjectFlow.RereadForms
import ObjectFlow.RereadText
import ObjectFlow.RereadTrees
import ObjectFlow.Rereading
import ObjectFlow.Rereads
import ObjectFlow.Resent
import ObjectFlow.Rows
import ObjectFlow.Scope
import ObjectFlow.Sequence
import ObjectFlow.SequenceRun
import ObjectFlow.Sharing
import ObjectFlow.Slots
import ObjectFlow.Spans
import ObjectFlow.Split
import ObjectFlow.Store
import ObjectFlow.Subscription
import ObjectFlow.Succession
import ObjectFlow.Successors
import ObjectFlow.Supersession
import ObjectFlow.Take
import ObjectFlow.TimeText
import ObjectFlow.Tokens
import ObjectFlow.Unfolding
import ObjectFlow.Value
import ObjectFlow.Verdict
import ObjectFlow.Walk
import ObjectFlow.Wire
import ObjectFlow.Withheld
import ObjectFlow.World
