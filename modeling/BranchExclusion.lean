import BranchExclusion.Main
import BranchExclusion.Files.Tree
import BranchExclusion.Proofs.Method.Assertions
import BranchExclusion.Proofs.Method.Flags
import BranchExclusion.Proofs.Method.Reachability
import BranchExclusion.Proofs.Method.Rendering
import BranchExclusion.Proofs.Chain.Repetition
import BranchExclusion.Proofs.Body.Growth
import BranchExclusion.Proofs.Java.Bodies
import BranchExclusion.Proofs.Method.Discovery
import BranchExclusion.Proofs.Java.Sites
import BranchExclusion.Proofs.Java.Methods
import BranchExclusion.Proofs.Source.Splice
import BranchExclusion.Proofs.Transform.Layouts
import BranchExclusion.Proofs.Transform.Placed
import BranchExclusion.Proofs.Transform.File
import BranchExclusion.Proofs.Java.Spelling
import BranchExclusion.Proofs.Layout.Shown
import BranchExclusion.Proofs.Transform.Readable
import BranchExclusion.Proofs.Transform.Methods
import BranchExclusion.Proofs.Body.Renaming
import BranchExclusion.Proofs.Chain.Order
import BranchExclusion.Proofs.Files.Tree
import BranchExclusion.Proofs.Command.InPlace
import BranchExclusion.Proofs.Command.Deliver
import BranchExclusion.Proofs.Layout.Margins
import BranchExclusion.Proofs.Layout.Nesting
import BranchExclusion.Proofs.Text.Rows
import BranchExclusion.Proofs.Source.Stretch
import BranchExclusion.Proofs.Layout.Reflow
import BranchExclusion.Proofs.Java.Places
import BranchExclusion.Proofs.Java.Reading
import BranchExclusion.Proofs.Java.Stretches
import BranchExclusion.Proofs.Method.Text
import BranchExclusion.Proofs.Transform.Comments
import BranchExclusion.Proofs.Chain.Run
import BranchExclusion.Proofs.Method.Members
import BranchExclusion.Proofs.Chain.Policies
import BranchExclusion.Proofs.Settings.RoundTrip
import BranchExclusion.Proofs.Source.Ordered
import BranchExclusion.Proofs.Source.Nested
import BranchExclusion.Proofs.Layout.Folding
import BranchExclusion.Proofs.Layout.Filled
import BranchExclusion.Proofs.Layout.Hosts
import BranchExclusion.Proofs.Method.Completion
import BranchExclusion.Proofs.Chain.Ladder
import BranchExclusion.Proofs.Method.Returns
import BranchExclusion.Proofs.Layout.Reindent
