import RubyWat.Main
import RubyWat.Proofs.BranchTargets
import RubyWat.Proofs.Soundness
import RubyWat.Proofs.LocalCalls
import RubyWat.Proofs.Requires
import RubyWat.Proofs.FieldAccess
import RubyWat.Proofs.EmittedNames
import RubyWat.Proofs.Rendering
import RubyWat.Proofs.Coherence
import RubyWat.Proofs.ShortCircuit
import RubyWat.Proofs.NativeOperators
import RubyWat.Proofs.Loops
import RubyWat.Proofs.References
import RubyWat.Proofs.LinkCheck
import RubyWat.Proofs.LinearMemory
import RubyWat.Proofs.Labels
import RubyWat.Proofs.Nesting
import RubyWat.Proofs.Splicing
