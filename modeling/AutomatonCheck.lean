import AutomatonCheck.Automaton.Listing
import AutomatonCheck.Command.Volume
import AutomatonCheck.Graph.BoundedWalk
import AutomatonCheck.Main
import AutomatonCheck.Session
import AutomatonCheck.Proofs.Entrywise
import AutomatonCheck.Proofs.Grammar
import AutomatonCheck.Proofs.Positions
import AutomatonCheck.Proofs.Readers
import AutomatonCheck.Proofs.Acceptance
import AutomatonCheck.Proofs.FirstViolation
import AutomatonCheck.Proofs.Exploration
import AutomatonCheck.Proofs.TransitionGraphs
import AutomatonCheck.Proofs.Verdict
import AutomatonCheck.Proofs.NamedMoves
import AutomatonCheck.Proofs.CheckOutcome
import AutomatonCheck.Proofs.Rearrangement
import AutomatonCheck.Proofs.EnumerationOrder
import AutomatonCheck.Proofs.AccessRange
import AutomatonCheck.Proofs.Runs
import AutomatonCheck.Proofs.Listings
import AutomatonCheck.Proofs.Renaming
import AutomatonCheck.Proofs.WarningLog
import AutomatonCheck.Proofs.InspectionTrail
import AutomatonCheck.Proofs.LogAgreement
import AutomatonCheck.Proofs.SessionSteps
import AutomatonCheck.Proofs.SectionViolations
import AutomatonCheck.Proofs.Utf8RoundTrip
import AutomatonCheck.Proofs.WrittenLines
import AutomatonCheck.Proofs.Utf8Replacement
import AutomatonCheck.Proofs.AcceptedBytes
import AutomatonCheck.Proofs.HostRuns
import AutomatonCheck.Proofs.CommandRuns
import AutomatonCheck.Proofs.BreadthFirst
import AutomatonCheck.Proofs.WalkOrder
import AutomatonCheck.Proofs.GraphContents
import AutomatonCheck.Proofs.FullReach
import AutomatonCheck.Proofs.ConnectedStates
import AutomatonCheck.Proofs.InitialChoice
import AutomatonCheck.Proofs.AddedTransitions
import AutomatonCheck.Proofs.UnusedNames
import AutomatonCheck.Proofs.ParsedPrefixes
import AutomatonCheck.Proofs.CarriedWarnings
import AutomatonCheck.Proofs.Utf8Restart
import AutomatonCheck.Proofs.LineCuts
import AutomatonCheck.Proofs.TextLines
import AutomatonCheck.Proofs.RenderedLines
import AutomatonCheck.Proofs.TransitionCounts
import AutomatonCheck.Proofs.EqualAutomata
import AutomatonCheck.Proofs.TraversalCalls
import AutomatonCheck.Proofs.StablePositions
