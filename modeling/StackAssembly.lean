import StackAssembly.Assembly
import StackAssembly.CommandLine.Report
import StackAssembly.Inspection
import StackAssembly.Machine.Run
import StackAssembly.Main
import StackAssembly.Program.Disassembly
import StackAssembly.Program.Listing
import StackAssembly.Proofs.LongestMatch
import StackAssembly.Proofs.TokenStream
import StackAssembly.Proofs.AssemblyOutcome
import StackAssembly.Proofs.Rendering
import StackAssembly.Proofs.InstructionBoundaries
import StackAssembly.Proofs.OperandPositions
import StackAssembly.Proofs.Spelling
import StackAssembly.Proofs.ListingGrammar
import StackAssembly.Proofs.ListingAsSource
import StackAssembly.Proofs.LosslessDisassembly
import StackAssembly.Proofs.ShownInstructions
import StackAssembly.Proofs.InstructionEffects
import StackAssembly.Proofs.FailedSteps
import StackAssembly.Proofs.VariableStore
import StackAssembly.Proofs.LimitedOutput
import StackAssembly.Proofs.ExecutionLog
import StackAssembly.Proofs.StackFrame
import StackAssembly.Proofs.UnreadWords
import StackAssembly.Proofs.StepAndRun
import StackAssembly.Proofs.LineByLine
import StackAssembly.Proofs.TwoEntryPoints
import StackAssembly.Proofs.ExpressionCode
import StackAssembly.Proofs.StackBalance
import StackAssembly.Proofs.HiddenText
import StackAssembly.Proofs.LineNumbers
import StackAssembly.Proofs.CommentInsertion
import StackAssembly.Proofs.DisassemblyAsListing
import StackAssembly.Proofs.CheckedAddresses
import StackAssembly.Proofs.ForwardJumps
import StackAssembly.Proofs.Countdown
import StackAssembly.Proofs.SourceOffsets
import StackAssembly.Proofs.TokenListing
