import GoToJava.Main
import GoToJava.Project.Tree
import GoToJava.Proofs.Deferral.Transparency
import GoToJava.Proofs.Flow.Switches
import GoToJava.Proofs.Forms.Callees
import GoToJava.Proofs.Forms.Constants
import GoToJava.Proofs.Loops.Ranges
import GoToJava.Proofs.Homes.References
import GoToJava.Proofs.Order.Names
import GoToJava.Proofs.Program.Libraries
import GoToJava.Proofs.Program.Locals
import GoToJava.Proofs.Members.Scratch
import GoToJava.Proofs.Depth.Rest
import GoToJava.Proofs.Java.Strings
import GoToJava.Proofs.Bindings
import GoToJava.Proofs.Draft.Offsets
import GoToJava.Proofs.Project.Paths
import GoToJava.Proofs.Project.Runs
