import CourseCompilers.Lib.Machine
import CourseCompilers.Lib.Simulation
import CourseCompilers.Lib.Skipping
import CourseCompilers.Lib.Runs
import CourseCompilers.Lib.Closure
import CourseCompilers.Lib.Cursor
import CourseCompilers.Lib.Forest
import CourseCompilers.Lib.Prog
import CourseCompilers.Lib.Precedence
import CourseCompilers.Lib.Flex
import CourseCompilers.Lib.Matching
import CourseCompilers.Lib.Avoids
import CourseCompilers.Lib.Dfa
import CourseCompilers.Lib.FlexScanner
import CourseCompilers.Lib.Bison
import CourseCompilers.Lib.Cfg
import CourseCompilers.Lib.FlipStack
import CourseCompilers.Ir.Syntax
import CourseCompilers.Ir.Machine
import CourseCompilers.Ir.Builder
import CourseCompilers.Ir.Growth
import CourseCompilers.Ir.WellFormed
import CourseCompilers.Ir.Placement
import CourseCompilers.Registers.Syntax
import CourseCompilers.Registers.Assembly
import CourseCompilers.Registers.Ssa
import CourseCompilers.Structured.Syntax
import CourseCompilers.Structured.Translate
import CourseCompilers.Structured.Build
import CourseCompilers.Structured.Correct
import CourseCompilers.Structured.WellFormed
import CourseCompilers.Uthash.Table
import CourseCompilers.Uthash.Jenkins
import CourseCompilers.MiniC.Symbol
import CourseCompilers.MiniC.Syntax
import CourseCompilers.MiniC.FrontEnd
import CourseCompilers.MiniC.Scoping
import CourseCompilers.MiniC.Scanner
import CourseCompilers.MiniC.Comments
import CourseCompilers.MiniC.Grammar
import CourseCompilers.MiniC.Driver
import CourseCompilers.MiniC.NullCalls
import CourseCompilers.MiniC.Reductions
import CourseCompilers.MiniC.Success
import CourseCompilers.MiniC.Returns
import CourseCompilers.MiniC.Parameters
import CourseCompilers.MiniC.Positions
import CourseCompilers.Dce.Module
import CourseCompilers.Dce.Worklist
import CourseCompilers.Dce.Semantics
import CourseCompilers.Dce.Fixpoint
import CourseCompilers.Analysis.Dominance
import CourseCompilers.Analysis.Edges
import CourseCompilers.Analysis.DomWalk
import CourseCompilers.CommandLine.Input
import CourseCompilers.CommandLine.Scanner
import CourseCompilers.Expressions.Values
import CourseCompilers.Expressions.Regrouping
import CourseCompilers.Structured.Reading
import CourseCompilers.Calculator.Lines
import CourseCompilers.Calculator.Scanner
import CourseCompilers.Calculator.Parser
import CourseCompilers.Words.Scanner
import CourseCompilers.Sdt.Translate
import CourseCompilers.Statistics.Csv
import CourseCompilers.Statistics.Table
import CourseCompilers.Calculator.Program
import CourseCompilers.Dce.Survivors
import CourseCompilers.MiniC.Operands
import CourseCompilers.Lib.Unambiguous
import CourseCompilers.MiniC.Compile
import CourseCompilers.Lib.Actions
import CourseCompilers.Structured.Accepts
import CourseCompilers.Structured.Main
import CourseCompilers.Structured.InC
import CourseCompilers.Statistics.Totals
