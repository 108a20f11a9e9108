import PowerAsm.Address
import PowerAsm.Assembler.Basic
import PowerAsm.Assembler.Label
import PowerAsm.Assembler.Log
import PowerAsm.Assembler.Sequence
import PowerAsm.Assembler.Sized
import PowerAsm.Branch
import PowerAsm.Command.Flag
import PowerAsm.Command.Folder
import PowerAsm.Command.Path
import PowerAsm.Command.Run
import PowerAsm.Command.Usage
import PowerAsm.Condition
import PowerAsm.Config
import PowerAsm.Fault
import PowerAsm.Form
import PowerAsm.Format
import PowerAsm.Frame.Basic
import PowerAsm.Frame.Layout
import PowerAsm.Frame.Prolog
import PowerAsm.Frame.Request
import PowerAsm.Instruction.Alias
import PowerAsm.Instruction.Basic
import PowerAsm.Instruction.GoSyntax
import PowerAsm.Instruction.Layout
import PowerAsm.Instruction.Mnemonic
import PowerAsm.Instruction.Opcode
import PowerAsm.Instruction.Operand
import PowerAsm.Instruction.Parser
import PowerAsm.Instruction.Statement
import PowerAsm.Listing
import PowerAsm.Main
import PowerAsm.Register
import PowerAsm.Release
import PowerAsm.Segment
import PowerAsm.Signature.Argument
import PowerAsm.Signature.Assignment
import PowerAsm.Source
import PowerAsm.Target
import PowerAsm.Text.Blank
import PowerAsm.Text.Glyph
import PowerAsm.Text.Line
import PowerAsm.Text.Numeral
import PowerAsm.Text.Printable
import PowerAsm.Text.Quoted
import PowerAsm.Text.Upper
import PowerAsm.Word
import PowerAsm.Workspace
import PowerAsm.Proofs.Fields
import PowerAsm.Proofs.Forms
import PowerAsm.Proofs.OperandFields
import PowerAsm.Proofs.Layouts
import PowerAsm.Proofs.Table
import PowerAsm.Proofs.Aliases
import PowerAsm.Proofs.Decoding
import PowerAsm.Proofs.Numerals
import PowerAsm.Proofs.InstructionText
import PowerAsm.Proofs.Disassembly
import PowerAsm.Proofs.Reassembly
import PowerAsm.Proofs.Expansion
import PowerAsm.Proofs.Branches
import PowerAsm.Proofs.Labels
import PowerAsm.Proofs.OnePass
import PowerAsm.Proofs.Machine
import PowerAsm.Proofs.Emission
import PowerAsm.Proofs.Encoders
import PowerAsm.Proofs.Operations
import PowerAsm.Proofs.FrameCode
import PowerAsm.Proofs.FrameExecution
import PowerAsm.Proofs.FrameSaves
import PowerAsm.Proofs.FrameSymmetry
import PowerAsm.Proofs.Replay
import PowerAsm.Proofs.FrameRegions
import PowerAsm.Proofs.CompareExchange
import PowerAsm.Proofs.SourceAssembly
import PowerAsm.Proofs.ListingLog
import PowerAsm.Proofs.FrameLimits
import PowerAsm.Proofs.Recovery
import PowerAsm.Proofs.ArgumentPlaces
import PowerAsm.Proofs.ConstantLoads
import PowerAsm.Proofs.SharedSegments
import PowerAsm.Proofs.Statements
import PowerAsm.Proofs.FailedBranches
import PowerAsm.Proofs.SpecialRegisters
import PowerAsm.Proofs.TextRoundTrip
import PowerAsm.Proofs.Processor
import PowerAsm.Proofs.Calls
import PowerAsm.Proofs.Padding
import PowerAsm.Proofs.FrameExtension
import PowerAsm.Proofs.ArgumentOrder
import PowerAsm.Proofs.Shifts
import PowerAsm.Proofs.RegisterCalls
import PowerAsm.Proofs.Buffers
import PowerAsm.Proofs.RotateWords
import PowerAsm.Proofs.BranchTargets
import PowerAsm.Proofs.Alignment
import PowerAsm.Proofs.DistinctTexts
import PowerAsm.Proofs.TableOrder
