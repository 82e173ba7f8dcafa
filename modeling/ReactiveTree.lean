import ReactiveTree.Proofs.Document.Audit
import ReactiveTree.Proofs.Document.Frame
import ReactiveTree.Proofs.Document.Links
import ReactiveTree.Proofs.Document.Showing
import ReactiveTree.Proofs.Graph.Edges
import ReactiveTree.Proofs.Reactive.Drift
import ReactiveTree.Proofs.Reactive.Evaluating
import ReactiveTree.Proofs.Reactive.History
import ReactiveTree.Proofs.Reactive.Making
import ReactiveTree.Proofs.Reactive.Operations
import ReactiveTree.Proofs.Reactive.Reaching
import ReactiveTree.Proofs.Reactive.ReadOnly
import ReactiveTree.Proofs.Reactive.Readiness
import ReactiveTree.Proofs.Reactive.Refreshing
import ReactiveTree.Proofs.Reactive.Running
import ReactiveTree.Proofs.Reactive.Staleness
import ReactiveTree.Proofs.Reactive.Steady
import ReactiveTree.Proofs.Reactive.Steps
import ReactiveTree.Proofs.Reactive.Views
import ReactiveTree.Proofs.Reconcile.Attributes
import ReactiveTree.Proofs.Reconcile.Board
import ReactiveTree.Proofs.Reconcile.Building
import ReactiveTree.Proofs.Reconcile.Exact
import ReactiveTree.Proofs.Reconcile.Layout
import ReactiveTree.Proofs.Reconcile.Planning
import ReactiveTree.Proofs.Reconcile.Rearranging
import ReactiveTree.Proofs.Reconcile.Removing
import ReactiveTree.Proofs.Reconcile.Rendering
import ReactiveTree.Proofs.Reconcile.Serving
import ReactiveTree.Proofs.Reconcile.Siblings
import ReactiveTree.Proofs.Reconcile.Slots
import ReactiveTree.Proofs.Reconcile.Targets
import ReactiveTree.Proofs.Sequence.LeadingSums
import ReactiveTree.Proofs.Sequence.LongestRun
import ReactiveTree.Proofs.Tree.Validity
import ReactiveTree.Script.Session
import ReactiveTree.Proofs.Document.Parts
import ReactiveTree.Proofs.Reconcile.Inheriting
import ReactiveTree.Proofs.Reconcile.Matching
import ReactiveTree.Proofs.Reconcile.Identity
import ReactiveTree.Proofs.Reactive.Cycles
import ReactiveTree.Proofs.Graph.Listing
import ReactiveTree.Proofs.Graph.Waking
import ReactiveTree.Proofs.Reactive.Keeping
import ReactiveTree.Proofs.Reactive.Sustaining
import ReactiveTree.Proofs.Reactive.Wakeups
import ReactiveTree.Proofs.Reactive.Sparing
import ReactiveTree.Proofs.Reactive.Touching
import ReactiveTree.Proofs.Reactive.Courses
import ReactiveTree.Proofs.Reactive.Following
import ReactiveTree.Proofs.Reactive.Charting
import ReactiveTree.Proofs.Reactive.Causes
import ReactiveTree.Proofs.Reactive.Cleanups
import ReactiveTree.Proofs.Reactive.Ceasing
import ReactiveTree.Proofs.Graph.Scheduling
import ReactiveTree.Proofs.Reactive.Completing
import ReactiveTree.Proofs.Reactive.Isolation
import ReactiveTree.Proofs.Reactive.Feedback
import ReactiveTree.Proofs.Reactive.Stopping
import ReactiveTree.Proofs.Reactive.Closing
import ReactiveTree.Proofs.Reactive.Marking
import ReactiveTree.Proofs.Reactive.Coalescing
import ReactiveTree.Proofs.Reactive.Accounts
import ReactiveTree.Proofs.Reactive.Tracking
import ReactiveTree.Proofs.Reactive.Freezing
import ReactiveTree.Proofs.Reactive.Writing
import ReactiveTree.Proofs.Graph.Mirroring
import ReactiveTree.Proofs.Reactive.Overlooking
import ReactiveTree.Proofs.Reconcile.Confining
import ReactiveTree.Proofs.Graph.Reachability
import ReactiveTree.Proofs.Reconcile.Deriving
import ReactiveTree.Proofs.Reconcile.Staying
import ReactiveTree.Proofs.Reconcile.Delegating
import ReactiveTree.Proofs.Reactive.Displays
import ReactiveTree.Proofs.Reactive.Repainting
import ReactiveTree.Proofs.Reactive.Enlisting
import ReactiveTree.Proofs.Reactive.Moments
import ReactiveTree.Proofs.Reactive.Carrying
import ReactiveTree.Proofs.Reactive.Mounting
import ReactiveTree.Proofs.Reactive.Subscribing
import ReactiveTree.Proofs.Reactive.Rerendering
import ReactiveTree.Proofs.Reactive.Presenting
import ReactiveTree.Proofs.Reactive.Unmounting
import ReactiveTree.Proofs.Reactive.Dating
import ReactiveTree.Proofs.Reactive.Recovering
import ReactiveTree.Proofs.Graph.Precedence
import ReactiveTree.Proofs.Graph.Forgetting
import ReactiveTree.Proofs.Reconcile.Listeners
import ReactiveTree.Proofs.Reconcile.Handover
import ReactiveTree.Proofs.Reconcile.Moving
import ReactiveTree.Proofs.Reconcile.Reordering
import ReactiveTree.Proofs.Reconcile.Reusing
import ReactiveTree.Proofs.Reconcile.Minimal
import ReactiveTree.Proofs.Document.Checked
import ReactiveTree.Proofs.Document.Refusals
import ReactiveTree.Proofs.Sequence.Firsts
import ReactiveTree.Proofs.Reconcile.Comparing
import ReactiveTree.Proofs.Reconcile.Lookups
import ReactiveTree.Proofs.Reconcile.Resolving
import ReactiveTree.Proofs.Reconcile.Repeating
import ReactiveTree.Proofs.Reconcile.Fitting
import ReactiveTree.Proofs.Reconcile.Drifting
import ReactiveTree.Proofs.Tree.Faults
import ReactiveTree.Proofs.Document.Escaping
import ReactiveTree.Proofs.Sequence.Pointers
import ReactiveTree.Proofs.Sequence.WordSums
