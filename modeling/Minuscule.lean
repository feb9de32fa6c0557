import Minuscule.Measure
import Minuscule.Sign
import Minuscule.Token
import Minuscule.Grammar
import Minuscule.Grammar.Lookahead
import Minuscule.Grammar.Table
import Minuscule.Tree
import Minuscule.Tree.Outline
import Minuscule.Tree.Arena
import Minuscule.SyntaxError
import Minuscule.Parser
import Minuscule.Numeral
import Minuscule.Language.Terminal
import Minuscule.Language.NonTerminal
import Minuscule.Language.Rule
import Minuscule.Language.Grammar
import Minuscule.Language.Lexer
import Minuscule.NameTable
import Minuscule.Variable
import Minuscule.Symbols
import Minuscule.Instruction
import Minuscule.Names
import Minuscule.SemanticError
import Minuscule.Attribute
import Minuscule.Attribute.Check
import Minuscule.Attribute.Declare
import Minuscule.Attribute.Layout
import Minuscule.Attribute.Flow
import Minuscule.Attribute.Walk
import Minuscule.Compile
import Minuscule.CommandLine
import Minuscule.Main
import Minuscule.Proofs.Lists
import Minuscule.Proofs.Traversal
import Minuscule.Proofs.Derivation
import Minuscule.Proofs.SignSets
import Minuscule.Proofs.Lookahead
import Minuscule.Proofs.FirstSets
import Minuscule.Proofs.Prediction
import Minuscule.Proofs.Rounds
import Minuscule.Proofs.Levels
import Minuscule.Proofs.Assembly
import Minuscule.Proofs.Parsing
import Minuscule.Proofs.Termination
import Minuscule.Proofs.Transcript
import Minuscule.Proofs.ViablePrefix
import Minuscule.Proofs.Recursion
import Minuscule.Proofs.Syntax
import Minuscule.Proofs.Elaboration
import Minuscule.Proofs.Emission
import Minuscule.Proofs.Declaring
import Minuscule.Proofs.Pieces
import Minuscule.Proofs.Lexemes
import Minuscule.Proofs.Spelling
import Minuscule.Proofs.Definitions
import Minuscule.Proofs.Reading
import Minuscule.Proofs.Descent
import Minuscule.Proofs.NameTables
import Minuscule.Proofs.Tables
import Minuscule.Proofs.WellFormed
import Minuscule.Proofs.Machine
import Minuscule.Proofs.Meaning
import Minuscule.Proofs.Calculation
import Minuscule.Proofs.Simulation
import Minuscule.Proofs.Segments
import Minuscule.Proofs.Conflicts
import Minuscule.Proofs.FollowSets
import Minuscule.Proofs.Lexing
import Minuscule.Proofs.Storage
import Minuscule.Proofs.ControlFlow
import Minuscule.Proofs.Temporaries
import Minuscule.Proofs.Supply
import Minuscule.Proofs.Growth
import Minuscule.Proofs.Hygiene
import Minuscule.Proofs.Records
import Minuscule.Proofs.Renumbering
import Minuscule.Proofs.ProductionOrder
import Minuscule.Proofs.Lines
import Minuscule.Proofs.Concatenation
import Minuscule.Proofs.Templates
import Minuscule.Proofs.Visibility
import Minuscule.Proofs.Bodies
import Minuscule.Proofs.Locality
import Minuscule.Proofs.Deletion
import Minuscule.Proofs.Listing
import Minuscule.Proofs.StrictEvaluator
import Minuscule.Proofs.Strictness
import Minuscule.Proofs.Precedence
import Minuscule.Proofs.Unambiguity
import Minuscule.Proofs.Chains
import Minuscule.Proofs.Decompilation
import Minuscule.Proofs.LexicalErrors
import Minuscule.Proofs.Uses
import Minuscule.Proofs.Calls
import Minuscule.Proofs.Bounds
import Minuscule.Proofs.Addresses
import Minuscule.Proofs.Itinerary
import Minuscule.Proofs.Passes
import Minuscule.Proofs.Resumption
import Minuscule.Proofs.Ownership
import Minuscule.Proofs.Handover
