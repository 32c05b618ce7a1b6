import Netlab.Main
import Netlab.Proofs.Numbers
import Netlab.Proofs.RoundTrip
import Netlab.Proofs.ViablePrefix
import Netlab.Session
import Netlab.Proofs.Places
import Netlab.Proofs.Outcome
import Netlab.Proofs.Unambiguous
import Netlab.Proofs.Quoting
import Netlab.Proofs.PythonText
import Netlab.Proofs.JsonGrammar
import Netlab.Proofs.JsonText
import Netlab.Proofs.AllOrNothing
import Netlab.Proofs.Assignment
import Netlab.Proofs.Relocation
import Netlab.Proofs.Relocation.Programs
import Netlab.Proofs.Layout
import Netlab.Proofs.Concatenation
import Netlab.Proofs.DerivedPath
import Netlab.Proofs.CommandRun
import Netlab.Proofs.Integers
import Netlab.Proofs.Pointing
import Netlab.Proofs.Readings
import Netlab.Proofs.Expansion
import Netlab.Proofs.ClauseOrder
import Netlab.Proofs.RepeatedParses
import Netlab.Proofs.Draws
import Netlab.Proofs.PoolText
import Netlab.Proofs.ModuleLines
import Netlab.Proofs.LiteralReader
import Netlab.Proofs.SharedEscapes
