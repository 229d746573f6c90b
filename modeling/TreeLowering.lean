import TreeLowering.Main
import TreeLowering.Schema.Table
import TreeLowering.Proofs.Complaints
import TreeLowering.Proofs.Pipeline
import TreeLowering.Proofs.LoopMeaning
import TreeLowering.Proofs.Calls
import TreeLowering.Proofs.Dispatch
import TreeLowering.Proofs.Postorder
import TreeLowering.Proofs.Issued
import TreeLowering.Proofs.Numbering
import TreeLowering.Proofs.Hygiene
import TreeLowering.Proofs.Missing
import TreeLowering.Proofs.Overlooked
import TreeLowering.Proofs.Embedding
import TreeLowering.Proofs.CompletedFirst
import TreeLowering.Proofs.Stages
import TreeLowering.Proofs.Fixpoint
import TreeLowering.Proofs.Spellings
import TreeLowering.Proofs.Encoding
import TreeLowering.Proofs.Documents
import TreeLowering.Proofs.DeclaredFields
import TreeLowering.Proofs.Scanning
import TreeLowering.Proofs.Inheritance
import TreeLowering.Proofs.Literals
import TreeLowering.Proofs.TypeCheck
import TreeLowering.Proofs.Reader
import TreeLowering.Proofs.UniqueReading
import TreeLowering.Proofs.Census
import TreeLowering.Proofs.Completeness
import TreeLowering.Proofs.Resumption
import TreeLowering.Proofs.Reach
import TreeLowering.Proofs.TableRules
import TreeLowering.Proofs.Consultations
import TreeLowering.Proofs.Transformers
import TreeLowering.Proofs.Patterns
import TreeLowering.Proofs.Integers
import TreeLowering.Proofs.FreshNames
import TreeLowering.Proofs.Quoting
import TreeLowering.Proofs.Construction
import TreeLowering.Proofs.NumberMatching
