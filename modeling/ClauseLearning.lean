import ClauseLearning.Lit
import ClauseLearning.Assignment.VarState
import ClauseLearning.Fault
import ClauseLearning.Table
import ClauseLearning.Clause
import ClauseLearning.Clause.Store
import ClauseLearning.NatMap
import ClauseLearning.Assignment.ChangeLog
import ClauseLearning.LevelStack
import ClauseLearning.Heap
import ClauseLearning.Assignment
import ClauseLearning.Assignment.Solution
import ClauseLearning.Trail
import ClauseLearning.Propagation
import ClauseLearning.Propagation.Check
import ClauseLearning.Propagation.FirstUip
import ClauseLearning.Policy
import ClauseLearning.Policy.Lowest
import ClauseLearning.Policy.ClauseIndex
import ClauseLearning.Policy.OpenClauses
import ClauseLearning.Policy.RankedQueue
import ClauseLearning.Policy.Scripted
import ClauseLearning.Policy.Recorded
import ClauseLearning.Policy.Choice
import ClauseLearning.Budget
import ClauseLearning.Decimal.Binary
import ClauseLearning.Decimal.Shortest
import ClauseLearning.Decimal.Word
import ClauseLearning.Average
import ClauseLearning.Statistics
import ClauseLearning.Refutation
import ClauseLearning.Rounds
import ClauseLearning.Solver
import ClauseLearning.Solver.Resolve
import ClauseLearning.Solver.Search
import ClauseLearning.Dimacs.Header
import ClauseLearning.Dimacs.Reader
import ClauseLearning.Dimacs.Problem
import ClauseLearning.CommandLine.Arguments
import ClauseLearning.CommandLine.Run
import ClauseLearning.Main
import ClauseLearning.Proofs.Solver.Preserved
import ClauseLearning.Proofs.Solver.Propagates
import ClauseLearning.Proofs.Solver.Served
import ClauseLearning.Proofs.Solver.Room
import ClauseLearning.Proofs.Solver.Terminates
import ClauseLearning.Proofs.Solver.Calls
import ClauseLearning.Proofs.Propagation.Closure
import ClauseLearning.Proofs.Propagation.Checked
import ClauseLearning.Proofs.Trail.InOrder
import ClauseLearning.Proofs.Solver.Inversion
import ClauseLearning.Proofs.Solver.Greatest
import ClauseLearning.Proofs.Policy.Recorded
import ClauseLearning.Proofs.Dimacs.Declared
import ClauseLearning.Proofs.Dimacs.WellFormed
import ClauseLearning.Proofs.Dimacs.RoundTrip
import ClauseLearning.Proofs.Solver.Moments
import ClauseLearning.Proofs.Dimacs.Explained
import ClauseLearning.Proofs.Heap.Places
import ClauseLearning.Proofs.Assignment.Changes
import ClauseLearning.Proofs.Policy.Provided
import ClauseLearning.Proofs.Ballast.Sessions
import ClauseLearning.Proofs.Heap.Order
import ClauseLearning.Proofs.Heap.Greatest
import ClauseLearning.Proofs.Heap.Books
import ClauseLearning.Proofs.Heap.Emptied
import ClauseLearning.Proofs.Policy.Priorities
import ClauseLearning.Proofs.Solver.Conflicts
import ClauseLearning.Proofs.Trail.Course
import ClauseLearning.Proofs.Propagation.ImplicationPoint
import ClauseLearning.Proofs.Solver.Novelty
import ClauseLearning.Proofs.Policy.ClauseIndex
import ClauseLearning.Proofs.Policy.Candidates
import ClauseLearning.Proofs.Refutation.Requirements
import ClauseLearning.Proofs.Assignment.Difference
import ClauseLearning.Proofs.Policy.Refreshes
import ClauseLearning.Proofs.Solver.Budgets
import ClauseLearning.Proofs.Propagation.Sorting
import ClauseLearning.Proofs.Solver.Accrual
import ClauseLearning.Proofs.Solver.Infeasible
import ClauseLearning.Proofs.Policy.Histogram
import ClauseLearning.Proofs.Solver.Noting
import ClauseLearning.Proofs.Policy.Account
