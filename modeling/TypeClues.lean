import TypeClues.Engine.Session
import TypeClues.Naming.Session
import TypeClues.Policy.Finder
import TypeClues.Proofs.Engine.Arena
import TypeClues.Proofs.Engine.Contract
import TypeClues.Proofs.Engine.Errors
import TypeClues.Proofs.Engine.Frame
import TypeClues.Proofs.Engine.Frozen
import TypeClues.Proofs.Engine.Graph
import TypeClues.Proofs.Engine.Incremental
import TypeClues.Proofs.Engine.NormalForms
import TypeClues.Proofs.Engine.Parts
import TypeClues.Proofs.Engine.Refinement
import TypeClues.Proofs.Engine.Repetition
import TypeClues.Proofs.Engine.Separation
import TypeClues.Proofs.Engine.Storing
import TypeClues.Proofs.Engine.Wakeups
import TypeClues.Proofs.Naming.Interleaving
import TypeClues.Proofs.Naming.Renaming
import TypeClues.Proofs.Numbering
import TypeClues.Proofs.Rule.Agreement
import TypeClues.Proofs.Rule.Equations
import TypeClues.Proofs.Rule.View
import TypeClues.Proofs.Store.Given
import TypeClues.Proofs.Store.Instantiation
import TypeClues.Proofs.Store.Keys
import TypeClues.Proofs.Store.Rearrangement
import TypeClues.Proofs.Store.Speculation
import TypeClues.Proofs.Store.Termination
import TypeClues.Rule.Statement
import TypeClues.Term.Cursor
import TypeClues.Proofs.Engine.Completion
import TypeClues.Proofs.Engine.Locality
import TypeClues.Proofs.Engine.Lookup
import TypeClues.Proofs.Store.Refusal
import TypeClues.Proofs.ConstraintSets
import TypeClues.Proofs.Engine.Logging
import TypeClues.Proofs.Rendering
import TypeClues.Proofs.Term.Traversal
