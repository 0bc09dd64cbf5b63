import CommandScript.Main
import CommandScript.Proofs.Planting
import CommandScript.Proofs.Closed
import CommandScript.Proofs.Exec
import CommandScript.Proofs.ReadAfterWrite
import CommandScript.Proofs.Caution
import CommandScript.Proofs.Tags
import CommandScript.Proofs.Flattening
import CommandScript.Proofs.FlatForm
import CommandScript.Proofs.RoundTrip
import CommandScript.Proofs.Ending
import CommandScript.Proofs.Failure
import CommandScript.Proofs.Paths
import CommandScript.Proofs.Regions
import CommandScript.Proofs.Isolation
import CommandScript.Proofs.FileNames
import CommandScript.Proofs.Calls
import CommandScript.Proofs.Subroutines
import CommandScript.Proofs.StackFrames
import CommandScript.Proofs.Positions
import CommandScript.Proofs.Halting
import CommandScript.Proofs.Registration
import CommandScript.Proofs.Literals
import CommandScript.Proofs.Namespaces
import CommandScript.Proofs.Sequencing
import CommandScript.Proofs.Writing
import CommandScript.Proofs.Lines
import CommandScript.Proofs.Texts
import CommandScript.Proofs.Relay
import CommandScript.Proofs.Idempotence
import CommandScript.Proofs.Quotations
import CommandScript.Proofs.Echo
import CommandScript.Proofs.ListTexts
import CommandScript.Proofs.Locality
import CommandScript.Proofs.Wrapping
import CommandScript.Proofs.SharedLists
import CommandScript.Proofs.ListCommands
import CommandScript.Proofs.ListSequences
import CommandScript.Proofs.FailedUpdates
import CommandScript.Proofs.Rebinding
import CommandScript.Proofs.Arguments
import CommandScript.Proofs.Unwinding
import CommandScript.Proofs.Changes
import CommandScript.Proofs.Unrolling
import CommandScript.Proofs.Computing
import CommandScript.Proofs.InnerScopes
import CommandScript.Proofs.Nesting
import CommandScript.Proofs.Conditionals
import CommandScript.Proofs.Imports
import CommandScript.Proofs.LibrarySearch
import CommandScript.Proofs.LocalDeclarations
import CommandScript.Proofs.ElementAccess
import CommandScript.Proofs.ComingRound
