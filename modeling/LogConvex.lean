import LogConvex.InteriorPoint.Method
import LogConvex.Proofs.Sparse
import LogConvex.Text.Error
import LogConvex.Text.Solution
import LogConvex.Workspace
import LogConvex.Proofs.Term
import LogConvex.Proofs.Expr
import LogConvex.Proofs.CanonicalForm
import LogConvex.Proofs.Affine
import LogConvex.Proofs.Declaration
import LogConvex.Proofs.Lowering
import LogConvex.Proofs.Objective
import LogConvex.Proofs.Tangent
import LogConvex.Proofs.Optimum
import LogConvex.Proofs.Run
import LogConvex.Proofs.History
import LogConvex.Proofs.GeometricSolve
import LogConvex.Proofs.Convexification
import LogConvex.Proofs.Algebra
import LogConvex.Proofs.RunRecord
import LogConvex.Proofs.Matrix
import LogConvex.Proofs.StandardForm
import LogConvex.Proofs.Duality
import LogConvex.Proofs.Sensitivity
import LogConvex.Proofs.Rejection
import LogConvex.Proofs.Laws
import LogConvex.Proofs.Layout
import LogConvex.Proofs.Operations
import LogConvex.Proofs.Proportional
import LogConvex.Proofs.Twins
import LogConvex.Proofs.Readback
import LogConvex.Proofs.Gradient
import LogConvex.Proofs.Handles
import LogConvex.Proofs.Ownership
import LogConvex.Proofs.Doubles
import LogConvex.Proofs.Finite
import LogConvex.Proofs.Narrowing
import LogConvex.Proofs.OperatorTable
import LogConvex.Proofs.Identities
import LogConvex.Proofs.Nondegenerate
import LogConvex.Proofs.Split
import LogConvex.Proofs.Support
import LogConvex.Proofs.Compressed
import LogConvex.Proofs.Logarithms
