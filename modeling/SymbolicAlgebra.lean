import SymbolicAlgebra.Calculus.Antiderivative
import SymbolicAlgebra.Calculus.ChangeOfVariable
import SymbolicAlgebra.Calculus.Derivative
import SymbolicAlgebra.Calculus.Elementary
import SymbolicAlgebra.Calculus.Methods
import SymbolicAlgebra.Calculus.PartsOrder
import SymbolicAlgebra.Equation.Isolation
import SymbolicAlgebra.Expr.Basic
import SymbolicAlgebra.Expr.ComplexConstant
import SymbolicAlgebra.Expr.HashData
import SymbolicAlgebra.Expr.NamedFunction
import SymbolicAlgebra.Expr.Operator
import SymbolicAlgebra.Expr.Order
import SymbolicAlgebra.Expr.Query
import SymbolicAlgebra.Expr.Replace
import SymbolicAlgebra.Expr.Sign
import SymbolicAlgebra.Factor.Binomial
import SymbolicAlgebra.Factor.Content
import SymbolicAlgebra.Factor.Grouping
import SymbolicAlgebra.Factor.Quadratic
import SymbolicAlgebra.Factor.RationalRoot
import SymbolicAlgebra.Factor.Shared
import SymbolicAlgebra.Layout.Grid
import SymbolicAlgebra.Layout.OfExpr
import SymbolicAlgebra.NormalForm
import SymbolicAlgebra.Number.Binary64
import SymbolicAlgebra.Number.IntegerRoot
import SymbolicAlgebra.Number.Rounding
import SymbolicAlgebra.Number.Shortest
import SymbolicAlgebra.Numeral.Basic
import SymbolicAlgebra.Numeral.Complex
import SymbolicAlgebra.Numeral.Power
import SymbolicAlgebra.Numeral.Text
import SymbolicAlgebra.Polynomial.Basic
import SymbolicAlgebra.Polynomial.Coefficient
import SymbolicAlgebra.Polynomial.Degree
import SymbolicAlgebra.Polynomial.Division
import SymbolicAlgebra.Polynomial.OfExpr
import SymbolicAlgebra.Product.Coefficient
import SymbolicAlgebra.Product.EqualExponents
import SymbolicAlgebra.Product.LikeFactors
import SymbolicAlgebra.Product.Power
import SymbolicAlgebra.Proofs.AntiderivativeIdentifiers
import SymbolicAlgebra.Proofs.Antiderivatives
import SymbolicAlgebra.Proofs.Asking
import SymbolicAlgebra.Proofs.AskingPolynomials
import SymbolicAlgebra.Proofs.BitwiseValues
import SymbolicAlgebra.Proofs.CallIdentities
import SymbolicAlgebra.Proofs.CallLaws
import SymbolicAlgebra.Proofs.CallRules
import SymbolicAlgebra.Proofs.CallSlopes
import SymbolicAlgebra.Proofs.Cancellation
import SymbolicAlgebra.Proofs.CanonicalOperands
import SymbolicAlgebra.Proofs.CanonicalOrder
import SymbolicAlgebra.Proofs.ChangeFlags
import SymbolicAlgebra.Proofs.ClosedForms
import SymbolicAlgebra.Proofs.Collection
import SymbolicAlgebra.Proofs.Congruence
import SymbolicAlgebra.Proofs.Constants
import SymbolicAlgebra.Proofs.Constructs
import SymbolicAlgebra.Proofs.DecimalExpansions
import SymbolicAlgebra.Proofs.DecimalText
import SymbolicAlgebra.Proofs.DerivativeErrors
import SymbolicAlgebra.Proofs.DerivativeIdentifiers
import SymbolicAlgebra.Proofs.DerivativeRules
import SymbolicAlgebra.Proofs.DerivativeValue
import SymbolicAlgebra.Proofs.DifferenceForm
import SymbolicAlgebra.Proofs.DifferentialReading
import SymbolicAlgebra.Proofs.DifferentialTerms
import SymbolicAlgebra.Proofs.ElementaryLaws
import SymbolicAlgebra.Proofs.EquationSolutions
import SymbolicAlgebra.Proofs.EquationSplits
import SymbolicAlgebra.Proofs.EuclideanDivision
import SymbolicAlgebra.Proofs.Evaluation
import SymbolicAlgebra.Proofs.ExactPowers
import SymbolicAlgebra.Proofs.Expansion
import SymbolicAlgebra.Proofs.ExposedPasses
import SymbolicAlgebra.Proofs.ExposedQuotients
import SymbolicAlgebra.Proofs.ExposedTerms
import SymbolicAlgebra.Proofs.Exposure
import SymbolicAlgebra.Proofs.FactoredSides
import SymbolicAlgebra.Proofs.FactoringIdentifiers
import SymbolicAlgebra.Proofs.FloatValues
import SymbolicAlgebra.Proofs.FullDistribution
import SymbolicAlgebra.Proofs.GatheringFlags
import SymbolicAlgebra.Proofs.GatheringIdentifiers
import SymbolicAlgebra.Proofs.GaussianNumbers
import SymbolicAlgebra.Proofs.GridPlacement
import SymbolicAlgebra.Proofs.Grouping
import SymbolicAlgebra.Proofs.Idempotence
import SymbolicAlgebra.Proofs.IdentifierValues
import SymbolicAlgebra.Proofs.Identifiers
import SymbolicAlgebra.Proofs.IdleGathering
import SymbolicAlgebra.Proofs.IdleRules
import SymbolicAlgebra.Proofs.IntegerPolynomials
import SymbolicAlgebra.Proofs.IntegerRoots
import SymbolicAlgebra.Proofs.IntegralRuns
import SymbolicAlgebra.Proofs.IntegralValues
import SymbolicAlgebra.Proofs.IrreducibleTrees
import SymbolicAlgebra.Proofs.Lexing
import SymbolicAlgebra.Proofs.LikeFactors
import SymbolicAlgebra.Proofs.LikeTerms
import SymbolicAlgebra.Proofs.LoopRuns
import SymbolicAlgebra.Proofs.Multiples
import SymbolicAlgebra.Proofs.NestedNormalForms
import SymbolicAlgebra.Proofs.OrderedShape
import SymbolicAlgebra.Proofs.Ordering
import SymbolicAlgebra.Proofs.ParsedTrees
import SymbolicAlgebra.Proofs.Parts
import SymbolicAlgebra.Proofs.PartsEquations
import SymbolicAlgebra.Proofs.PolynomialArithmetic
import SymbolicAlgebra.Proofs.PolynomialDegrees
import SymbolicAlgebra.Proofs.PolynomialDivision
import SymbolicAlgebra.Proofs.PolynomialIdentifiers
import SymbolicAlgebra.Proofs.PolynomialImage
import SymbolicAlgebra.Proofs.PolynomialReading
import SymbolicAlgebra.Proofs.PolynomialSlope
import SymbolicAlgebra.Proofs.PolynomialTrees
import SymbolicAlgebra.Proofs.PowerReductions
import SymbolicAlgebra.Proofs.Powers
import SymbolicAlgebra.Proofs.QuadraticFactors
import SymbolicAlgebra.Proofs.QuotientReduction
import SymbolicAlgebra.Proofs.RatioSlopes
import SymbolicAlgebra.Proofs.RationalFunctions
import SymbolicAlgebra.Proofs.RationalRoots
import SymbolicAlgebra.Proofs.ReadBack
import SymbolicAlgebra.Proofs.Readers
import SymbolicAlgebra.Proofs.Reading
import SymbolicAlgebra.Proofs.RealCurves
import SymbolicAlgebra.Proofs.RealFunctions
import SymbolicAlgebra.Proofs.ReductionFormulas
import SymbolicAlgebra.Proofs.Replacement
import SymbolicAlgebra.Proofs.RestoredDifferences
import SymbolicAlgebra.Proofs.RoundingOrder
import SymbolicAlgebra.Proofs.Rounds
import SymbolicAlgebra.Proofs.RuleIdentifiers
import SymbolicAlgebra.Proofs.SharedFactors
import SymbolicAlgebra.Proofs.Signs
import SymbolicAlgebra.Proofs.SingleRows
import SymbolicAlgebra.Proofs.SoundIntegrals
import SymbolicAlgebra.Proofs.SpecialProducts
import SymbolicAlgebra.Proofs.SplitCoefficients
import SymbolicAlgebra.Proofs.StructuralRewrites
import SymbolicAlgebra.Proofs.SubstitutionValue
import SymbolicAlgebra.Proofs.SumFactoring
import SymbolicAlgebra.Proofs.SumForm
import SymbolicAlgebra.Proofs.SymbolicPolynomials
import SymbolicAlgebra.Proofs.TableSlopes
import SymbolicAlgebra.Proofs.TabledCalls
import SymbolicAlgebra.Proofs.TabledIntegrals
import SymbolicAlgebra.Proofs.Terms
import SymbolicAlgebra.Proofs.TextRoundTrip
import SymbolicAlgebra.Proofs.TextTokens
import SymbolicAlgebra.Proofs.TreeOrdering
import SymbolicAlgebra.Proofs.TrimmedTrees
import SymbolicAlgebra.Proofs.Trimming
import SymbolicAlgebra.Proofs.UndefinedIntegrals
import SymbolicAlgebra.Proofs.UndefinedNumbers
import SymbolicAlgebra.Proofs.VariableChanges
import SymbolicAlgebra.Proofs.ZeroDivisors
import SymbolicAlgebra.Quotient.CommonDenominator
import SymbolicAlgebra.Quotient.FactoredSides
import SymbolicAlgebra.Quotient.LowestTerms
import SymbolicAlgebra.Quotient.Reciprocal
import SymbolicAlgebra.Rule.Arithmetic
import SymbolicAlgebra.Rule.Call
import SymbolicAlgebra.Rule.Everywhere
import SymbolicAlgebra.Rule.Flatten
import SymbolicAlgebra.Rule.OperandOrder
import SymbolicAlgebra.Rule.Trim
import SymbolicAlgebra.Sum.Difference
import SymbolicAlgebra.Sum.Expansion
import SymbolicAlgebra.Sum.LikeTerms
import SymbolicAlgebra.Sum.SquareIdentity
import SymbolicAlgebra.Text.Binding
import SymbolicAlgebra.Text.Letter
import SymbolicAlgebra.Text.Linear
import SymbolicAlgebra.Text.Reader
import SymbolicAlgebra.Text.Token
