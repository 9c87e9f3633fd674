import KilnLang.AliasTable
import KilnLang.Analysis
import KilnLang.Builtin
import KilnLang.CommandLine.Options
import KilnLang.CommandLine.Run
import KilnLang.CompileError
import KilnLang.Compiler
import KilnLang.Diagnostic
import KilnLang.FileSystem
import KilnLang.Header.CToken
import KilnLang.Header.Cache
import KilnLang.Header.Declaration
import KilnLang.Header.Directive
import KilnLang.Header.Lines
import KilnLang.Header.Locator
import KilnLang.Header.Symbol
import KilnLang.Header.Table
import KilnLang.Main
import KilnLang.Path
import KilnLang.Proofs.CommandLine.Batch
import KilnLang.Proofs.Files.Growth
import KilnLang.Proofs.Header.ByteScan
import KilnLang.Proofs.Header.Caching
import KilnLang.Proofs.Header.CommentSpacing
import KilnLang.Proofs.Header.Completeness
import KilnLang.Proofs.Header.History
import KilnLang.Proofs.Header.Inclusion
import KilnLang.Proofs.Header.LineMeaning
import KilnLang.Proofs.Header.LineNumbers
import KilnLang.Proofs.Header.LineReading
import KilnLang.Proofs.Header.MacroDefinitions
import KilnLang.Proofs.Header.ParameterLists
import KilnLang.Proofs.Header.ScanSafety
import KilnLang.Proofs.Header.SharedLoads
import KilnLang.Proofs.Header.TokenCutting
import KilnLang.Proofs.Header.TokenIndices
import KilnLang.Proofs.Header.TypeNames
import KilnLang.Proofs.Header.Wrappers
import KilnLang.Proofs.Semantic.AddedParentheses
import KilnLang.Proofs.Semantic.Agreement
import KilnLang.Proofs.Semantic.AliasCycles
import KilnLang.Proofs.Semantic.AliasOrder
import KilnLang.Proofs.Semantic.AliasSources
import KilnLang.Proofs.Semantic.AliasStability
import KilnLang.Proofs.Semantic.Aliases
import KilnLang.Proofs.Semantic.Annotation
import KilnLang.Proofs.Semantic.Arguments
import KilnLang.Proofs.Semantic.CheckedStores
import KilnLang.Proofs.Semantic.Checking
import KilnLang.Proofs.Semantic.CompleteCalls
import KilnLang.Proofs.Semantic.Completion
import KilnLang.Proofs.Semantic.Declaring
import KilnLang.Proofs.Semantic.DefaultSlots
import KilnLang.Proofs.Semantic.Diagnostics
import KilnLang.Proofs.Semantic.DroppedErrors
import KilnLang.Proofs.Semantic.Exchange
import KilnLang.Proofs.Semantic.Expansion
import KilnLang.Proofs.Semantic.FilledSlots
import KilnLang.Proofs.Semantic.Filling
import KilnLang.Proofs.Semantic.FunctionEntries
import KilnLang.Proofs.Semantic.MacroArity
import KilnLang.Proofs.Semantic.MacroConstants
import KilnLang.Proofs.Semantic.MergedDefaults
import KilnLang.Proofs.Semantic.OnlySlots
import KilnLang.Proofs.Semantic.Operands
import KilnLang.Proofs.Semantic.OrderIndependence
import KilnLang.Proofs.Semantic.Parentheses
import KilnLang.Proofs.Semantic.PartTransport
import KilnLang.Proofs.Semantic.Places
import KilnLang.Proofs.Semantic.ReferenceSlots
import KilnLang.Proofs.Semantic.Renumbering
import KilnLang.Proofs.Semantic.Reordering
import KilnLang.Proofs.Semantic.ResolvedExpressions
import KilnLang.Proofs.Semantic.Scoping
import KilnLang.Proofs.Semantic.Sites
import KilnLang.Proofs.Semantic.Slots
import KilnLang.Proofs.Semantic.Spanless
import KilnLang.Proofs.Semantic.SpanlessChecking
import KilnLang.Proofs.Semantic.SpanlessResolution
import KilnLang.Proofs.Semantic.Success
import KilnLang.Proofs.Semantic.Transport
import KilnLang.Proofs.Semantic.Visibility
import KilnLang.Proofs.Syntax.Ahead
import KilnLang.Proofs.Syntax.Cursor
import KilnLang.Proofs.Syntax.CursorSteps
import KilnLang.Proofs.Syntax.Drawing
import KilnLang.Proofs.Syntax.DumpReading
import KilnLang.Proofs.Syntax.ExactSpans
import KilnLang.Proofs.Syntax.FaithfulDump
import KilnLang.Proofs.Syntax.Layout
import KilnLang.Proofs.Syntax.PieceTree
import KilnLang.Proofs.Syntax.Pieces
import KilnLang.Proofs.Syntax.Places
import KilnLang.Proofs.Syntax.Plain
import KilnLang.Proofs.Syntax.Printing
import KilnLang.Proofs.Syntax.Progress
import KilnLang.Proofs.Syntax.Reading
import KilnLang.Proofs.Syntax.Rereading
import KilnLang.Proofs.Syntax.RereadingExpr
import KilnLang.Proofs.Syntax.Respelling
import KilnLang.Proofs.Syntax.RespellingExpr
import KilnLang.Proofs.Syntax.Shape
import KilnLang.Proofs.Syntax.Unspanned
import KilnLang.Proofs.Target.Arity
import KilnLang.Proofs.Target.CGrammar
import KilnLang.Proofs.Target.CLexemes
import KilnLang.Proofs.Target.DeclarationOrder
import KilnLang.Proofs.Target.Declarators
import KilnLang.Proofs.Target.Emission
import KilnLang.Proofs.Target.Extents
import KilnLang.Proofs.Target.Fusion
import KilnLang.Proofs.Target.Grouping
import KilnLang.Proofs.Target.Hygiene
import KilnLang.Proofs.Target.Indirection
import KilnLang.Proofs.Target.IntegerConstants
import KilnLang.Proofs.Target.Layout
import KilnLang.Proofs.Target.Legibility
import KilnLang.Proofs.Target.Levels
import KilnLang.Proofs.Target.LiteralMeaning
import KilnLang.Proofs.Target.Prototypes
import KilnLang.Proofs.Target.SpanlessEmission
import KilnLang.Proofs.Target.Spelling
import KilnLang.Proofs.Target.TypeLowering
import KilnLang.Proofs.Text.ByteOffsets
import KilnLang.Proofs.Text.Cutting
import KilnLang.Proofs.Text.LineTable
import KilnLang.Proofs.Token.Insertion
import KilnLang.Proofs.Token.Lexemes
import KilnLang.Proofs.Token.Places
import KilnLang.Proofs.Token.Respacing
import KilnLang.Proofs.Token.Tiling
import KilnLang.Proofs.Ty.FirstDifference
import KilnLang.Proofs.Ty.Rendering
import KilnLang.Semantic.Check
import KilnLang.Semantic.Context
import KilnLang.Semantic.Error
import KilnLang.Semantic.Report
import KilnLang.Semantic.Resolve
import KilnLang.Semantic.Scope
import KilnLang.Semantic.Typing
import KilnLang.Source
import KilnLang.SourceSet
import KilnLang.Span
import KilnLang.Syntax
import KilnLang.Syntax.Dump
import KilnLang.Syntax.Outline
import KilnLang.Syntax.ParseError
import KilnLang.Syntax.Parser
import KilnLang.Syntax.TokenStream
import KilnLang.Target.CExpr
import KilnLang.Target.CType
import KilnLang.Target.CUnit
import KilnLang.Target.DataModel
import KilnLang.Target.Literal
import KilnLang.Target.Lowering
import KilnLang.Text.Blank
import KilnLang.Text.Utf8
import KilnLang.Token
import KilnLang.Token.IntLiteral
import KilnLang.Token.Lexer
import KilnLang.Tree
import KilnLang.Ty
import KilnLang.Ty.Compatibility
