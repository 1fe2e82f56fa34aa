import ClassStamp.Fixture
import ClassStamp.Main
import ClassStamp.Transformer.Recording
import ClassStamp.Transformer.Script
import ClassStamp.Proofs.ClassFile.Coding
import ClassStamp.Proofs.ClassFile.Slots
import ClassStamp.Proofs.ClassFile.PoolGrowth
import ClassStamp.Proofs.ClassFile.Reencoding
import ClassStamp.Proofs.FileTree.Changes
import ClassStamp.Proofs.ModifiedUtf8
import ClassStamp.Proofs.ClassFile.Growth
import ClassStamp.Proofs.ClassName.FilePlace
import ClassStamp.Proofs.Additive
import ClassStamp.Proofs.Output
import ClassStamp.Proofs.Run.Trace
import ClassStamp.Proofs.Run.Invariant
import ClassStamp.Proofs.Classpath.Checkout
import ClassStamp.Proofs.Run.Resolution
import ClassStamp.Proofs.Run.Step
import ClassStamp.Proofs.Run.Execution
import ClassStamp.Proofs.Run.ExactlyOnce
import ClassStamp.Proofs.Run.StampRecord
import ClassStamp.Proofs.Run.Exits
import ClassStamp.Proofs.Run.History
import ClassStamp.Proofs.Run.Failure
import ClassStamp.Proofs.Classpath.Membership
import ClassStamp.Proofs.Run.Account
import ClassStamp.Proofs.Classpath.Superclasses
import ClassStamp.Proofs.Classpath.Independence
import ClassStamp.Proofs.Run.Agreement
import ClassStamp.Proofs.Path.Joining
import ClassStamp.Proofs.ClassName.FromPath
import ClassStamp.Proofs.FileTree.Sound
import ClassStamp.Proofs.FileTree.SoundEdits
import ClassStamp.Proofs.Run.Completion
import ClassStamp.Proofs.Run.Locating
import ClassStamp.Proofs.Build.Phases
import ClassStamp.Proofs.Run.Finding
import ClassStamp.Proofs.Run.Hiding
import ClassStamp.Proofs.Run.MarkerStep
import ClassStamp.Proofs.Run.MarkedScope
import ClassStamp.Proofs.Run.StampRemoval
import ClassStamp.Proofs.Classpath.Scopes
import ClassStamp.Proofs.ClassName.Internal
import ClassStamp.Proofs.ClassName.Forms
import ClassStamp.Proofs.ClassFile.Changes
import ClassStamp.Proofs.Artifact.Operations
import ClassStamp.Proofs.ClassFile.Interning
import ClassStamp.Proofs.ClassFile.InnerListing
import ClassStamp.Proofs.Classpath.Reached
import ClassStamp.Proofs.Classpath.FirstTime
import ClassStamp.Proofs.Run.Regular
import ClassStamp.Proofs.Run.Propagation
import ClassStamp.Proofs.ClassFile.AddedField
import ClassStamp.Proofs.ClassFile.ListedNames
import ClassStamp.Proofs.Artifact.Stamping
import ClassStamp.Proofs.ClassName.Membership
import ClassStamp.Proofs.ModifiedUtf8.Canonical
import ClassStamp.Proofs.ClassFile.Delimiting
import ClassStamp.Proofs.Classpath.Termination
import ClassStamp.Proofs.ClassFile.PoolCalls
import ClassStamp.Proofs.ClassName.Packages
