import LinkKeeper.Main
import LinkKeeper.Rehearsal
import LinkKeeper.Proofs.Segments
import LinkKeeper.Proofs.Paths
import LinkKeeper.Proofs.Resolution
import LinkKeeper.Proofs.Subtrees
import LinkKeeper.Proofs.Retargeting
import LinkKeeper.Proofs.Filing
import LinkKeeper.Proofs.Indexing
import LinkKeeper.Proofs.Locations
import LinkKeeper.Proofs.Trees
import LinkKeeper.Proofs.Changes
import LinkKeeper.Proofs.Numerals
import LinkKeeper.Proofs.Strings
import LinkKeeper.Proofs.Documents
import LinkKeeper.Proofs.Literals
import LinkKeeper.Proofs.SideBySide
import LinkKeeper.Proofs.Walking
import LinkKeeper.Proofs.Found
import LinkKeeper.Proofs.InStep
import LinkKeeper.Proofs.Scanning
import LinkKeeper.Proofs.Planning
import LinkKeeper.Proofs.Revising
import LinkKeeper.Proofs.Maintaining
import LinkKeeper.Proofs.Runs
import LinkKeeper.Proofs.Matches
import LinkKeeper.Proofs.Pieces
import LinkKeeper.Proofs.Rows
import LinkKeeper.Proofs.Standing
import LinkKeeper.Proofs.Splicing
import LinkKeeper.Proofs.Following
import LinkKeeper.Proofs.Bystanders
import LinkKeeper.Proofs.Readings
import LinkKeeper.Proofs.Companions
import LinkKeeper.Proofs.Waiting
import LinkKeeper.Proofs.Removals
import LinkKeeper.Proofs.Sightings
import LinkKeeper.Proofs.Lagging
import LinkKeeper.Proofs.Alike
import LinkKeeper.Proofs.Landing
import LinkKeeper.Proofs.Rereading
import LinkKeeper.Proofs.Lettering
import LinkKeeper.Proofs.Successors
import LinkKeeper.Proofs.Handover
import LinkKeeper.Proofs.Spans
import LinkKeeper.Proofs.Ledger
import LinkKeeper.Proofs.Exhaustive
import LinkKeeper.Proofs.Repeating
import LinkKeeper.Proofs.Ticks
import LinkKeeper.Proofs.Pairing
import LinkKeeper.Proofs.OwnWrites
import LinkKeeper.Proofs.Carrying
import LinkKeeper.Proofs.Relocating
import LinkKeeper.Proofs.Rescanning
import LinkKeeper.Proofs.Preparing
import LinkKeeper.Proofs.Foretelling
import LinkKeeper.Proofs.Arrivals
import LinkKeeper.Proofs.Replacing
import LinkKeeper.Proofs.Repathing
import LinkKeeper.Proofs.Slots
import LinkKeeper.Proofs.Respelling
import LinkKeeper.Proofs.Reparsing
import LinkKeeper.Proofs.Appearances
import LinkKeeper.Proofs.Recreations
import LinkKeeper.Proofs.Admissions
import LinkKeeper.Proofs.Holders
import LinkKeeper.Proofs.Lookups
import LinkKeeper.Proofs.Substituting
import LinkKeeper.Proofs.Outgoing
import LinkKeeper.Proofs.Grounds
import LinkKeeper.Proofs.Crossings
import LinkKeeper.Proofs.Patching
import LinkKeeper.Proofs.Looks
import LinkKeeper.Proofs.Fitting
import LinkKeeper.Proofs.Batches
import LinkKeeper.Proofs.Decoding
import LinkKeeper.Proofs.Exchanging
import LinkKeeper.Proofs.Returning
import LinkKeeper.Proofs.Querying
import LinkKeeper.Proofs.Refreshing
import LinkKeeper.Proofs.Deleting
import LinkKeeper.Proofs.LineEnds
import LinkKeeper.Proofs.Refusing
import LinkKeeper.Proofs.Checking
import LinkKeeper.Proofs.Prose
import LinkKeeper.Proofs.Canonical
import LinkKeeper.Proofs.Shortest
import LinkKeeper.Proofs.Rebasing
import LinkKeeper.Proofs.Turns
import LinkKeeper.Proofs.Confining
import LinkKeeper.Proofs.Quotations
import LinkKeeper.Proofs.Occurrences
