import WasmCompiler.CommandLine
import WasmCompiler.Compilation
import WasmCompiler.Diagnostic
import WasmCompiler.Files.Basic
import WasmCompiler.Files.Path
import WasmCompiler.Files.Tree
import WasmCompiler.Include
import WasmCompiler.Main
import WasmCompiler.Number.Binary
import WasmCompiler.Number.Decimal
import WasmCompiler.Number.Integer
import WasmCompiler.Number.Shortest
import WasmCompiler.Proofs.Appending
import WasmCompiler.Proofs.Basic
import WasmCompiler.Proofs.BinaryFormat
import WasmCompiler.Proofs.BlamedNodes
import WasmCompiler.Proofs.Decimals
import WasmCompiler.Proofs.Decoding
import WasmCompiler.Proofs.DiagnosticPlaces
import WasmCompiler.Proofs.DirectivePlaces
import WasmCompiler.Proofs.Disassembly
import WasmCompiler.Proofs.Emission
import WasmCompiler.Proofs.ErrorPlaces
import WasmCompiler.Proofs.ExpressionGrammar
import WasmCompiler.Proofs.FilePaths
import WasmCompiler.Proofs.FloatArithmetic
import WasmCompiler.Proofs.FloatLiterals
import WasmCompiler.Proofs.Fragment
import WasmCompiler.Proofs.Functions
import WasmCompiler.Proofs.IncludeGraph
import WasmCompiler.Proofs.InstructionText
import WasmCompiler.Proofs.IntegerLiterals
import WasmCompiler.Proofs.Layout
import WasmCompiler.Proofs.Lexemes
import WasmCompiler.Proofs.LexerRuns
import WasmCompiler.Proofs.LexicalGrammar
import WasmCompiler.Proofs.Lexing
import WasmCompiler.Proofs.LineEnds
import WasmCompiler.Proofs.LineExpansion
import WasmCompiler.Proofs.LineIndex
import WasmCompiler.Proofs.LoweringAgreement
import WasmCompiler.Proofs.LoweringFailures
import WasmCompiler.Proofs.Machine
import WasmCompiler.Proofs.Meaning
import WasmCompiler.Proofs.NearestNumbers
import WasmCompiler.Proofs.NodePlaces
import WasmCompiler.Proofs.Numerals
import WasmCompiler.Proofs.Occurrences
import WasmCompiler.Proofs.Operators
import WasmCompiler.Proofs.Parsing
import WasmCompiler.Proofs.ParsingLayout
import WasmCompiler.Proofs.Points
import WasmCompiler.Proofs.Positions
import WasmCompiler.Proofs.Preservation
import WasmCompiler.Proofs.PrintedGrammar
import WasmCompiler.Proofs.PrintedNumbers
import WasmCompiler.Proofs.Printing
import WasmCompiler.Proofs.RawInstructions
import WasmCompiler.Proofs.Replacement
import WasmCompiler.Proofs.ReturnStatements
import WasmCompiler.Proofs.RoundTrip
import WasmCompiler.Proofs.Rounding
import WasmCompiler.Proofs.Run
import WasmCompiler.Proofs.Scanning
import WasmCompiler.Proofs.Simulation
import WasmCompiler.Proofs.SourceRanges
import WasmCompiler.Proofs.Splicing
import WasmCompiler.Proofs.StatementGrammar
import WasmCompiler.Proofs.StatementReading
import WasmCompiler.Proofs.SymbolTables
import WasmCompiler.Proofs.SyntaxErrors
import WasmCompiler.Proofs.TruthValues
import WasmCompiler.Proofs.Typing
import WasmCompiler.Proofs.TypingRules
import WasmCompiler.Proofs.Validation
import WasmCompiler.Proofs.Validity
import WasmCompiler.Text.Fields
import WasmCompiler.Text.Position
import WasmCompiler.Text.Slice
import WasmCompiler.Text.Span
import WasmCompiler.Token.Basic
import WasmCompiler.Token.Cursor
import WasmCompiler.Token.Lexer
import WasmCompiler.Token.Scan
import WasmCompiler.Token.Stream
import WasmCompiler.Tree.Basic
import WasmCompiler.Tree.Literal
import WasmCompiler.Tree.Operator
import WasmCompiler.Tree.Outline
import WasmCompiler.Tree.Parser
import WasmCompiler.Tree.Printer
import WasmCompiler.Typing.Checker
import WasmCompiler.Typing.Error
import WasmCompiler.Typing.Symbols
import WasmCompiler.Typing.Table
import WasmCompiler.Typing.Ty
import WasmCompiler.Wasm.Code
import WasmCompiler.Wasm.EmitError
import WasmCompiler.Wasm.Instr
import WasmCompiler.Wasm.Leb128
import WasmCompiler.Wasm.Lowering
import WasmCompiler.Wasm.Module
import WasmCompiler.Wasm.Opcode
import WasmCompiler.Wasm.RawText
import WasmCompiler.Wasm.TextFormat
