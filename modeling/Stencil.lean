import Stencil.Engine.Run
import Stencil.Host.Table
import Stencil.Proofs.Cache
import Stencil.Proofs.Plan.Prospect
import Stencil.Proofs.Store
import Stencil.Proofs.Process.Lawful
import Stencil.Proofs.Process.Bind
import Stencil.Proofs.Process.Sweep
import Stencil.Proofs.Process.Queue
import Stencil.Proofs.Plan.Lawful
import Stencil.Proofs.Engine.Sound
import Stencil.Proofs.Plan.Unfailing
import Stencil.Proofs.Engine.Confluence
import Stencil.Proofs.Direct.Plan
import Stencil.Proofs.Direct.Process
import Stencil.Proofs.Direct.Engine
import Stencil.Proofs.Direct.Bound
import Stencil.Proofs.Text.Occurrence
import Stencil.Proofs.Text.Trim
import Stencil.Proofs.Text.Words
import Stencil.Proofs.Tag.Parts
import Stencil.Proofs.Tags.Change
import Stencil.Proofs.Token.Scan
import Stencil.Proofs.Template.Reading
import Stencil.Proofs.Template.Kept
import Stencil.Proofs.Template.Layout
import Stencil.Proofs.Template.Cut
import Stencil.Proofs.Template.Raw
import Stencil.Proofs.Token.Writing
import Stencil.Proofs.Token.Stream
import Stencil.Proofs.Token.Partition
import Stencil.Proofs.Template.Balance
import Stencil.Proofs.Template.Append
import Stencil.Proofs.Indent.Padding
import Stencil.Proofs.Indent.Lines
import Stencil.Proofs.Template.Padded
import Stencil.Proofs.Template.Redraw
import Stencil.Proofs.Template.Indented
import Stencil.Proofs.Template.Pairs
import Stencil.Proofs.Process.Blind
import Stencil.Proofs.Engine.Transparency
import Stencil.Proofs.Plan.Failure
import Stencil.Proofs.Process.Prompt
import Stencil.Proofs.Process.PromptJoin
import Stencil.Proofs.Engine.Isolation
import Stencil.Proofs.Plan.Sheds
import Stencil.Proofs.Value.Wraps
import Stencil.Proofs.Plan.Wrapping
import Stencil.Proofs.Process.Tracks
import Stencil.Proofs.Process.TracksJoin
import Stencil.Proofs.Engine.Wrapping
import Stencil.Proofs.Process.Orderly
import Stencil.Proofs.Process.Journal
import Stencil.Proofs.Plan.Chances
import Stencil.Proofs.Process.Watchful
import Stencil.Proofs.Process.WatchfulJoin
import Stencil.Proofs.Plan.Watchful
import Stencil.Proofs.Engine.Chronicle
import Stencil.Proofs.Engine.Watchful
import Stencil.Proofs.Engine.Failure
import Stencil.Proofs.Plan.Causes
import Stencil.Proofs.Engine.Sharing
import Stencil.Proofs.Plan.Returned
import Stencil.Proofs.Plan.Runs
import Stencil.Proofs.Process.Recorded
import Stencil.Proofs.Process.RecordedJoin
import Stencil.Proofs.Plan.Recorded
import Stencil.Proofs.Engine.Recorded
import Stencil.Proofs.Escape
import Stencil.Proofs.Plan.Escaped
import Stencil.Proofs.Engine.Escaping
import Stencil.Proofs.Engine.Identity
import Stencil.Proofs.Text.Traced
import Stencil.Proofs.Template.Margin
import Stencil.Proofs.Plan.Margin
import Stencil.Proofs.Plan.Meaning
import Stencil.Proofs.Template.Atoms
import Stencil.Proofs.Template.Spread
import Stencil.Proofs.Template.Exchange
import Stencil.Proofs.Template.Splice
import Stencil.Proofs.Template.Joint
import Stencil.Proofs.Template.Inlined
import Stencil.Proofs.Plan.Exchange
import Stencil.Proofs.Plan.Inlined
import Stencil.Proofs.Direct.Chances
import Stencil.Proofs.Engine.Inlined
import Stencil.Proofs.Token.Agreement
import Stencil.Proofs.Template.Agreement
import Stencil.Proofs.Template.Faults
import Stencil.Proofs.Tags.Gates
import Stencil.Proofs.Template.Spans
import Stencil.Proofs.Plan.Confined
import Stencil.Proofs.Value.Finite
import Stencil.Proofs.Plan.Depth
import Stencil.Proofs.Plan.Acyclic
import Stencil.Proofs.Process.Dwindling
import Stencil.Proofs.Engine.Termination
import Stencil.Proofs.Process.Tandem
import Stencil.Proofs.Process.TandemJoin
import Stencil.Proofs.Plan.Alike
import Stencil.Proofs.Plan.Unread
import Stencil.Proofs.Engine.Unread
import Stencil.Proofs.Plan.Complement
import Stencil.Proofs.Plan.Course
import Stencil.Proofs.Plan.Lookup
import Stencil.Proofs.Plan.Stints
import Stencil.Proofs.Value.Deep
import Stencil.Proofs.Location
import Stencil.Proofs.Number.Whole
