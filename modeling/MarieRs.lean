import MarieRs.Lib.Journal
import MarieRs.Lib.Backtracking
import MarieRs.Lib.Splice
import MarieRs.Lib.Worklist
import MarieRs.Lib.Tiling
import MarieRs.Lib.Bitset
import MarieRs.Lib.Stuttering
import MarieRs.Lib.Triples
import MarieRs.Lib.Latest
import MarieRs.Lib.Timeline
import MarieRs.Core.Word
import MarieRs.Core.Instruction
import MarieRs.Core.Text
import MarieRs.Core.Literal
import MarieRs.Core.Image
import MarieRs.Vm.Microcode
import MarieRs.Vm.Device
import MarieRs.Vm.History
import MarieRs.Vm.Machine
import MarieRs.Vm.Breakpoints
import MarieRs.Vm.Step
import MarieRs.Vm.Isa
import MarieRs.Vm.Cycle
import MarieRs.Vm.Documented
import MarieRs.Vm.Run
import MarieRs.Vm.Slices
import MarieRs.Vm.Views
import MarieRs.Vm.Reverse
import MarieRs.Vm.Trajectory
import MarieRs.Vm.Interpreter
import MarieRs.Vm.Loading
import MarieRs.Vm.Api
import MarieRs.Vm.Safety
import MarieRs.Vm.Stops
import MarieRs.Vm.Promises
import MarieRs.Vm.Painting
import MarieRs.Vm.Stalls
import MarieRs.Vm.Reset
import MarieRs.Vm.Refinement
import MarieRs.Vm.Contracts
import MarieRs.Vm.Stopping
import MarieRs.Vm.Rewinding
import MarieRs.Vm.Culprit
import MarieRs.Vm.StepBack
import MarieRs.Vm.Resumed
import MarieRs.Vm.Flaky
import MarieRs.Vm.Prompt
import MarieRs.Asm.Span
import MarieRs.Asm.Lexer
import MarieRs.Asm.LineRegex
import MarieRs.Asm.Splitter
import MarieRs.Asm.Diagnostic
import MarieRs.Asm.Ast
import MarieRs.Asm.Symbols
import MarieRs.Asm.Parser
import MarieRs.Asm.Assembler
import MarieRs.Asm.Lines
import MarieRs.Asm.Outline
import MarieRs.Asm.Words
import MarieRs.Asm.Layout
import MarieRs.Asm.Room
import MarieRs.Asm.Reader
import MarieRs.Asm.Grammar
import MarieRs.Asm.Reading
import MarieRs.Asm.Tails
import MarieRs.Asm.Meaning
import MarieRs.Asm.Numerals
import MarieRs.Asm.Rewriting
import MarieRs.Asm.Renaming
import MarieRs.Asm.Pieces
import MarieRs.Asm.Relabel
import MarieRs.Asm.Lint
import MarieRs.Asm.Api
import MarieRs.Asm.Printed
import MarieRs.Asm.Ignored
import MarieRs.Asm.Reports
import MarieRs.Asm.LineEndings
import MarieRs.Asm.Places
import MarieRs.Asm.LineStarts
import MarieRs.Asm.Clamping
import MarieRs.Asm.Rewording
import MarieRs.Asm.Unknown
import MarieRs.Asm.Tokens
import MarieRs.Asm.Casing
import MarieRs.Asm.Spans
import MarieRs.Asm.Occurrences
import MarieRs.Asm.Gutter
import MarieRs.Asm.Literals
import MarieRs.Asm.Marks
import MarieRs.Asm.Overlooked
import MarieRs.Asm.Leading
import MarieRs.Asm.Trailing
import MarieRs.Lint.Cfg
import MarieRs.Lint.Flow
import MarieRs.Lint.Hazards
import MarieRs.Lint.Style
import MarieRs.Lint.Linter
import MarieRs.Lint.Reach
import MarieRs.Lint.Paths
import MarieRs.Lint.Edges
import MarieRs.Lint.Soundness
import MarieRs.Lint.Transfers
import MarieRs.Lint.Findings
import MarieRs.Lint.Revealed
import MarieRs.Lsp.Encoding
import MarieRs.Lsp.Navigation
import MarieRs.Lsp.Columns
import MarieRs.Lsp.Offsets
import MarieRs.Lsp.Rename
import MarieRs.Lsp.SemanticTokens
import MarieRs.Lsp.Diagnostics
import MarieRs.Lsp.Actions
import MarieRs.Lsp.Fixes
import MarieRs.Lsp.Hover
import MarieRs.Lsp.Repairs
import MarieRs.Lsp.Queries
import MarieRs.Lsp.Symbols
import MarieRs.Lsp.Hints
import MarieRs.Lsp.Completion
import MarieRs.Lsp.Server
import MarieRs.Lsp.Session
import MarieRs.Cli.Input
import MarieRs.Cli.Drivers
import MarieRs.Cli.Replay
import MarieRs.Cli.Programs
import MarieRs.Cli.Dumps
import MarieRs.Cli.Debugger
import MarieRs.Cli.Sessions
import MarieRs.Cli.Timeline
import MarieRs.Cli.Locations
import MarieRs.Lib.Interruption
import MarieRs.Cli.Interrupted
import MarieRs.Lint.Levels
import MarieRs.Cli.Linting
