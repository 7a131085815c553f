import GameCircuit.Canonical.Equality
import GameCircuit.Canonical.Literal
import GameCircuit.Canonical.Normalize
import GameCircuit.Canonical.Occupancy
import GameCircuit.Canonical.Schedule
import GameCircuit.Canonical.Specialization
import GameCircuit.Circuit.Assembly
import GameCircuit.Circuit.Basic
import GameCircuit.Circuit.Build
import GameCircuit.Circuit.Component
import GameCircuit.Circuit.Drawing
import GameCircuit.Circuit.Links
import GameCircuit.Circuit.Removal
import GameCircuit.Circuit.Score
import GameCircuit.Collection.Keyed
import GameCircuit.Collection.OrderedMap
import GameCircuit.Collection.OrderedSet
import GameCircuit.Demo
import GameCircuit.Error
import GameCircuit.Game
import GameCircuit.Grounding.Database
import GameCircuit.Grounding.Emission
import GameCircuit.Grounding.Join
import GameCircuit.Grounding.Plan
import GameCircuit.Grounding.Saturation
import GameCircuit.Grounding.Schema
import GameCircuit.Grounding.Table
import GameCircuit.Language.Code
import GameCircuit.Language.Formula
import GameCircuit.Language.Interning
import GameCircuit.Language.Printing
import GameCircuit.Language.Symbol
import GameCircuit.Language.Term
import GameCircuit.Main
import GameCircuit.Play.Machine
import GameCircuit.Play.Order
import GameCircuit.Play.Valuation
import GameCircuit.Proofs.Firing
import GameCircuit.Proofs.Flattening
import GameCircuit.Proofs.Instances
import GameCircuit.Proofs.Joins
import GameCircuit.Proofs.Loading
import GameCircuit.Proofs.Meaning
import GameCircuit.Proofs.Sequences
import GameCircuit.Proofs.Tables
import GameCircuit.Sequence
import GameCircuit.Settings
import GameCircuit.Text.Character
import GameCircuit.Text.LetterRanges
import GameCircuit.Text.Lexeme
import GameCircuit.Text.Number
import GameCircuit.Text.Quoted
import GameCircuit.Text.Reader
import GameCircuit.Text.Token
import GameCircuit.Proofs.LeastModel
import GameCircuit.Proofs.GroundProgram
import GameCircuit.Proofs.EvaluationOrder
import GameCircuit.Proofs.Conclusions
import GameCircuit.Proofs.StartWiring
import GameCircuit.Proofs.SeveralInputs
import GameCircuit.Proofs.BuiltCircuits
import GameCircuit.Proofs.CircuitMeaning
import GameCircuit.Proofs.Interpretation
import GameCircuit.Proofs.NormalForms
import GameCircuit.Proofs.Refinement
import GameCircuit.Proofs.InitialState
import GameCircuit.Proofs.Batches
import GameCircuit.Proofs.Lexicons
import GameCircuit.Proofs.Occupancies
import GameCircuit.Proofs.Variants
import GameCircuit.Proofs.Passes
import GameCircuit.Proofs.Idempotence
import GameCircuit.Proofs.HerbrandModels
import GameCircuit.Proofs.FaithfulPasses
import GameCircuit.Proofs.FunctionTerms
import GameCircuit.Proofs.RuleInstances
import GameCircuit.Proofs.SafeGrounding
import GameCircuit.Proofs.Origins
import GameCircuit.Proofs.WellFormedCircuits
import GameCircuit.Proofs.FirstOccurrences
import GameCircuit.Proofs.ChoiceOrder
import GameCircuit.Proofs.Outlines
import GameCircuit.Proofs.Candidates
import GameCircuit.Proofs.PassRuns
import GameCircuit.Proofs.SteadyRuns
import GameCircuit.Proofs.Generations
import GameCircuit.Proofs.FreshEntries
import GameCircuit.Proofs.OpeningChoices
import GameCircuit.Proofs.Convergence
import GameCircuit.Proofs.CanonicalForms
import GameCircuit.Proofs.SolvedRules
import GameCircuit.Proofs.Detaching
import GameCircuit.Proofs.Removals
import GameCircuit.Proofs.NamesAndNumbers
import GameCircuit.Proofs.Spelling
import GameCircuit.Proofs.ReadingBack
import GameCircuit.Proofs.StableSchedules
import GameCircuit.Proofs.CoherentCircuits
import GameCircuit.Proofs.ConsistentValues
import GameCircuit.Proofs.AcyclicCircuits
import GameCircuit.Proofs.JointMoves
import GameCircuit.Proofs.FiniteUniverse
import GameCircuit.Proofs.DeadComponents
import GameCircuit.Proofs.FreshVariables
import GameCircuit.Proofs.TableLimits
import GameCircuit.Proofs.BlockedComponents
import GameCircuit.Proofs.BaseFacts
import GameCircuit.Proofs.Histories
import GameCircuit.Proofs.NestedLoops
import GameCircuit.Proofs.ConsistentIndices
import GameCircuit.Proofs.TupleMeanings
