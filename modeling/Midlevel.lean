import Midlevel.Main
import Midlevel.Proofs.Cache.Keys
import Midlevel.Proofs.CommandLine.Outputs
import Midlevel.Proofs.Ir.Names
import Midlevel.Proofs.Ir.Rollback
import Midlevel.Proofs.Ir.Symbols
import Midlevel.Proofs.Layout.Boxes
import Midlevel.Proofs.Lowering.Dominance
import Midlevel.Proofs.Lowering.Literals
import Midlevel.Proofs.Pass.Bypass
import Midlevel.Proofs.Pass.OperatorEffects
import Midlevel.Proofs.Pipeline.EmptyStore
import Midlevel.Proofs.Pipeline.Stories
import Midlevel.Proofs.Trace.Ring
import Midlevel.Proofs.Type.Canonical
import Midlevel.Service
import Midlevel.Proofs.Trace.Nesting
