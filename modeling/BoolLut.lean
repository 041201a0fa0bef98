import BoolLut.Misuse
import BoolLut.Name
import BoolLut.Formula.Basic
import BoolLut.Formula.Text
import BoolLut.Formula.Value
import BoolLut.ByteLength
import BoolLut.ParseError
import BoolLut.Token.Basic
import BoolLut.Token.Blank
import BoolLut.Token.Lexer
import BoolLut.Formula.Parser
import BoolLut.NameTable
import BoolLut.Bindings
import BoolLut.BitWidth
import BoolLut.Assignment
import BoolLut.TruthTable
import BoolLut.Failure
import BoolLut.Report
import BoolLut.Log
import BoolLut.Run
import BoolLut.Command.Arguments
import BoolLut.Command.FileTree
import BoolLut.Command.Answer
import BoolLut.Main
import BoolLut.Proofs.Grammar
import BoolLut.Proofs.OpenSigns
import BoolLut.Proofs.Place
import BoolLut.Proofs.Reading
import BoolLut.Proofs.SyntaxErrors
import BoolLut.Proofs.WrittenTokens
import BoolLut.Proofs.WrittenForm
import BoolLut.Proofs.Codes
import BoolLut.Proofs.Lines
import BoolLut.Proofs.PrintedTable
import BoolLut.Proofs.Spelling
import BoolLut.Proofs.Checks
import BoolLut.Proofs.CountedParser
import BoolLut.Proofs.Widths
import BoolLut.Proofs.CheckedRun
import BoolLut.Proofs.Leaves
import BoolLut.Proofs.InOrder
import BoolLut.Proofs.Outcomes
import BoolLut.Proofs.Canonical
import BoolLut.Proofs.Chains
import BoolLut.Proofs.Renaming
import BoolLut.Proofs.Reordering
import BoolLut.Proofs.UniqueReading
import BoolLut.Proofs.OwnLines
import BoolLut.Proofs.Respelling
import BoolLut.Proofs.LogSteps
import BoolLut.Proofs.LogAndReport
import BoolLut.Proofs.ArgumentForms
import BoolLut.Proofs.CommandLines
import BoolLut.Proofs.Drafts
import BoolLut.Proofs.CommandOutcomes
import BoolLut.Proofs.LexicalErrors
import BoolLut.Proofs.Compounds
import BoolLut.Proofs.Writes
import BoolLut.Proofs.Sources
import BoolLut.Proofs.Calls
import BoolLut.Proofs.Decoding
import BoolLut.Proofs.Models
import BoolLut.Proofs.Placeholders
import BoolLut.Proofs.CallStack
import BoolLut.Proofs.EntryState
import BoolLut.Proofs.Descents
