import ClauseInduction.Main
import ClauseInduction.Variant
import ClauseInduction.Proofs.Substitution
import ClauseInduction.Proofs.Subsumption
import ClauseInduction.Proofs.Variant
import ClauseInduction.Proofs.Reduction
import ClauseInduction.Proofs.Generalization.Combination
import ClauseInduction.Proofs.Generalization.Table
import ClauseInduction.Proofs.Generalization.Bounds
import ClauseInduction.Proofs.Learner.Run
import ClauseInduction.Proofs.Learner.NoiseFree
import ClauseInduction.Proofs.Learner.Coverage
import ClauseInduction.Proofs.Generalization.Renaming
import ClauseInduction.Proofs.Learner.Naming
import ClauseInduction.Proofs.Generalization.Lifting
import ClauseInduction.Proofs.Learner.Persistence
import ClauseInduction.Proofs.Learner.Arity
import ClauseInduction.Proofs.Learner.Order
import ClauseInduction.Proofs.Generalization.Monotone
import ClauseInduction.Proofs.Learner.Reducing
import ClauseInduction.Proofs.Generalization.Overlay
import ClauseInduction.Proofs.Learner.Repetition
import ClauseInduction.Proofs.Learner.Failure
import ClauseInduction.Proofs.Learner.Change
import ClauseInduction.Proofs.Json.Scan
import ClauseInduction.Proofs.Json.Nesting
import ClauseInduction.Proofs.Json.Reader
import ClauseInduction.Proofs.Task.Term
import ClauseInduction.Proofs.Task.RoundTrip
import ClauseInduction.Proofs.Learner.Document
import ClauseInduction.Proofs.Learner.Taxonomy
import ClauseInduction.Proofs.CommandLine
import ClauseInduction.Proofs.Taxonomy.Forest
import ClauseInduction.Proofs.Taxonomy.Meeting
import ClauseInduction.Proofs.Generalization.Symmetry
import ClauseInduction.Proofs.Taxonomy.Acceptance
import ClauseInduction.Proofs.Taxonomy.Walk
import ClauseInduction.Proofs.Generalization.Idempotence
import ClauseInduction.Proofs.Learner.Settling
import ClauseInduction.Proofs.Issue
import ClauseInduction.Proofs.Generalization.Resolution
import ClauseInduction.Proofs.Search.Mapping
import ClauseInduction.Proofs.Search.Pairing
