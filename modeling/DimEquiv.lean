import DimEquiv.Analysis
import DimEquiv.Number.Binary64
import DimEquiv.Proofs.ClassCollapse
import DimEquiv.Proofs.BroadcastEffect
import DimEquiv.Proofs.FreshNames
import DimEquiv.Proofs.InferenceOutcome
import DimEquiv.Proofs.InferenceEffect
import DimEquiv.Proofs.SizeReads
import DimEquiv.Proofs.RunSteps
import DimEquiv.Proofs.TableAgreement
import DimEquiv.Occurrence
import DimEquiv.Proofs.InferenceCongruence
import DimEquiv.Proofs.ReadLookup
import DimEquiv.Proofs.Resemblance
import DimEquiv.Proofs.Reanalysis
import DimEquiv.Valuation
import DimEquiv.Proofs.Denotation
import DimEquiv.Proofs.InferenceSoundness
import DimEquiv.Proofs.Soundness
import DimEquiv.Splice
import DimEquiv.Callee
import DimEquiv.Dimension
import DimEquiv.Derivation
import DimEquiv.Plan
import DimEquiv.ShapeRule
import DimEquiv.UnionLog
import DimEquiv.Proofs.SplicedReads
import DimEquiv.Proofs.EagerUnion
import DimEquiv.Proofs.SpecialClasses
import DimEquiv.Proofs.DerivedClasses
import DimEquiv.Proofs.RuleReading
import DimEquiv.Proofs.ToldDefinitions
import DimEquiv.Proofs.PlannedClasses
import DimEquiv.Proofs.Reordering
import DimEquiv.Proofs.RetiredClasses
import DimEquiv.Proofs.SizeBlindness
import DimEquiv.Proofs.FailedRuns
import DimEquiv.LiteralLengths
import DimEquiv.Proofs.LiteralSizes
import DimEquiv.Proofs.SizeSources
import DimEquiv.Proofs.SizePositions
import DimEquiv.Proofs.CanonicalShapes
import DimEquiv.Proofs.EscapingFailures
import DimEquiv.Proofs.UnknownDimensions
import DimEquiv.TreeEvaluation
import DimEquiv.Proofs.TrailingDimensions
import DimEquiv.Proofs.FusedEvaluation
import DimEquiv.StoreRequest
import DimEquiv.Proofs.TableHistory
import DimEquiv.Proofs.AdoptedReads
import DimEquiv.Proofs.KeptSizes
import DimEquiv.Renaming
import DimEquiv.Proofs.RenamedInference
import DimEquiv.Proofs.RenamedSymbols
import DimEquiv.Proofs.RenamedRuns
import DimEquiv.Proofs.VariableRoles
import DimEquiv.Proofs.ExactReads
import DimEquiv.Proofs.FailedInference
import DimEquiv.Proofs.ProductEffect
import DimEquiv.Proofs.PrintedTrees
import DimEquiv.Proofs.FirstAppearances
import DimEquiv.Proofs.RepeatedOperands
import DimEquiv.Proofs.ShapeArguments
import DimEquiv.Proofs.Transposes
import DimEquiv.NameRequest
import DimEquiv.Proofs.NameSequences
