import Pddl.Command
import Pddl.Command.Arguments
import Pddl.Constraint
import Pddl.Cursor
import Pddl.Description
import Pddl.Domain
import Pddl.Effect
import Pddl.Expression
import Pddl.Failure
import Pddl.Goal
import Pddl.Grammar.Basic
import Pddl.Grammar.Constraint
import Pddl.Grammar.Domain
import Pddl.Grammar.Effect
import Pddl.Grammar.Expression
import Pddl.Grammar.Forms
import Pddl.Grammar.Goal
import Pddl.Grammar.Nonterminal
import Pddl.Grammar.Problem
import Pddl.Grammar.Production
import Pddl.Grammar.Term
import Pddl.Lexeme
import Pddl.Loading
import Pddl.Main
import Pddl.Node.Basic
import Pddl.Node.Build
import Pddl.Node.Kind
import Pddl.Node.Layout
import Pddl.Node.Outline
import Pddl.Node.Render
import Pddl.Node.Usage
import Pddl.Node.Walk
import Pddl.Number.Binary64
import Pddl.Number.Numeral
import Pddl.Number.Order
import Pddl.Number.Shortest
import Pddl.Number.Spelling
import Pddl.Parser
import Pddl.Problem
import Pddl.Proofs.Agreement
import Pddl.Proofs.Context
import Pddl.Proofs.Delimited
import Pddl.Proofs.Enclosure
import Pddl.Proofs.Forms
import Pddl.Proofs.Levels
import Pddl.Proofs.Lexeme
import Pddl.Proofs.Progress
import Pddl.Proofs.Rereading
import Pddl.Proofs.Sections
import Pddl.Proofs.Spelling
import Pddl.Proofs.Terms
import Pddl.Proofs.TypedLists
import Pddl.Proofs.View
import Pddl.Reading
import Pddl.Requirement
import Pddl.Settings.Basic
import Pddl.Settings.Document
import Pddl.Settings.Scalar
import Pddl.Store
import Pddl.Summary
import Pddl.Symbol
import Pddl.Term
import Pddl.Text.Blank
import Pddl.Text.Digit
import Pddl.Text.Position
import Pddl.Text.Printable
import Pddl.Text.Quoted
import Pddl.Text.Similarity
import Pddl.Typed
import Pddl.Vocabulary
import Pddl.Proofs.Effects
import Pddl.Proofs.Preconditions
import Pddl.Proofs.Outcome
import Pddl.Proofs.Remembering
import Pddl.Proofs.Choice
import Pddl.Proofs.Keywords
import Pddl.Proofs.GoalTexts
import Pddl.Proofs.Trajectories
import Pddl.Proofs.TrajectoryTexts
import Pddl.Proofs.ProblemTexts
import Pddl.Proofs.Positions
import Pddl.Proofs.Ceiling
import Pddl.Proofs.Nesting
import Pddl.Proofs.Resources
import Pddl.Proofs.Finality
import Pddl.Proofs.Parts
import Pddl.Proofs.UnknownFlags
import Pddl.Proofs.Assembly
import Pddl.Proofs.NormalForm
import Pddl.Proofs.ParsedTrees
import Pddl.Proofs.Comments
import Pddl.Proofs.CompleteInput
import Pddl.Proofs.TypedTexts
import Pddl.Proofs.LineTables
import Pddl.Proofs.ListedItems
import Pddl.Proofs.Flattening
import Pddl.Proofs.Extensions
import Pddl.Proofs.DurativeExpressions
import Pddl.Proofs.PrintedExpressions
import Pddl.Proofs.Operands
import Pddl.Proofs.Operations
import Pddl.Proofs.AppliedTerms
import Pddl.Proofs.TimedEffects
import Pddl.Proofs.DeclaredFlags
import Pddl.Proofs.Emptiness
import Pddl.Proofs.Paths
import Pddl.Proofs.Pending
import Pddl.Proofs.Confined
import Pddl.Proofs.MalformedDefinitions
import Pddl.Proofs.FluentForms
import Pddl.Proofs.FluentSpellings
import Pddl.Proofs.FlagSets
import Pddl.Proofs.ConstructTrees
import Pddl.Proofs.NeededFlags
import Pddl.Proofs.Outlines
import Pddl.Proofs.NumberTexts
import Pddl.Proofs.LongestWords
import Pddl.Proofs.FurthestMismatch
import Pddl.Proofs.Overflow
import Pddl.Proofs.Acceptance
import Pddl.Proofs.AcceptedTrees
import Pddl.Proofs.CanonicalFiles
import Pddl.Proofs.Commands
import Pddl.Proofs.Gaps
import Pddl.Proofs.Respacing
import Pddl.Proofs.EffectTexts
import Pddl.Proofs.DurativeTexts
import Pddl.Proofs.DomainTexts
