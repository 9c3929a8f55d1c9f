import UnrollAsm.Files.Disk
import UnrollAsm.Main
import UnrollAsm.Proofs.Refinement
import UnrollAsm.Proofs.Safety
import UnrollAsm.Proofs.Termination
import UnrollAsm.Proofs.Word.RoundTrip
import UnrollAsm.Proofs.Tree.WellFormed
import UnrollAsm.Proofs.Reading.WellFormed
import UnrollAsm.Proofs.Session.FailStop
import UnrollAsm.Proofs.Unrolling.Lockstep
import UnrollAsm.Proofs.InitialValues
import UnrollAsm.Proofs.Block.Replacement
import UnrollAsm.Proofs.Block.Repetition
import UnrollAsm.Proofs.ConstantLoop
import UnrollAsm.Proofs.LaterLines
import UnrollAsm.Proofs.Target.Validation
import UnrollAsm.Proofs.Unrolling.Trace
import UnrollAsm.Proofs.Session.Ready
import UnrollAsm.Proofs.Failures
import UnrollAsm.Proofs.Transcript
import UnrollAsm.Proofs.Reading.Instructions
import UnrollAsm.Proofs.Unrolling.Repetitions
import UnrollAsm.Proofs.Unrolling.Tally
import UnrollAsm.Proofs.Combinations
import UnrollAsm.Proofs.Mirror
import UnrollAsm.Proofs.Pieces
import UnrollAsm.Proofs.Session.Points
import UnrollAsm.Proofs.Literals
import UnrollAsm.Proofs.Renaming.Lines
import UnrollAsm.Proofs.Renaming.Trees
import UnrollAsm.Proofs.Renaming
import UnrollAsm.Proofs.ValuesOnly
import UnrollAsm.Proofs.Statement.Trimming
import UnrollAsm.Proofs.Disassembly
import UnrollAsm.Proofs.ErrorLines
import UnrollAsm.Proofs.Files.Disk
import UnrollAsm.Proofs.Report.Listing
import UnrollAsm.Proofs.OutputFile
import UnrollAsm.Proofs.Word.Operands
import UnrollAsm.Proofs.Statement.Grammar
import UnrollAsm.Proofs.Header.Trips
import UnrollAsm.Proofs.Target.Document
import UnrollAsm.Proofs.Target.Tables
import UnrollAsm.Proofs.Unrolling.Writes
import UnrollAsm.Proofs.Tree.Nesting
import UnrollAsm.Proofs.Tree.Lookup
import UnrollAsm.Proofs.ReadBack
