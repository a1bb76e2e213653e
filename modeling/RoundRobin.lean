import RoundRobin.CommandLine.Session
import RoundRobin.Main
import RoundRobin.Proofs.Station
import RoundRobin.Proofs.Transfer
import RoundRobin.Proofs.Layout
import RoundRobin.Proofs.Move
import RoundRobin.Proofs.Operation
import RoundRobin.Proofs.Execute
import RoundRobin.Proofs.Admission
import RoundRobin.Proofs.Turn
import RoundRobin.Proofs.Step
import RoundRobin.Proofs.Load
import RoundRobin.Proofs.Run
import RoundRobin.Proofs.Reachable
import RoundRobin.Proofs.Partition
import RoundRobin.Proofs.Position
import RoundRobin.Proofs.Exclusion
import RoundRobin.Proofs.Wakeup
import RoundRobin.Proofs.Horizon
import RoundRobin.Proofs.Termination
import RoundRobin.Proofs.Scene
import RoundRobin.Proofs.Requests
import RoundRobin.Proofs.Finality
import RoundRobin.Proofs.Arrangement
import RoundRobin.Proofs.Standstill
import RoundRobin.Proofs.Acquisition
import RoundRobin.Proofs.Solo
import RoundRobin.Proofs.Agreement
import RoundRobin.Proofs.Seclusion
import RoundRobin.Proofs.Spell
import RoundRobin.Proofs.Execution
import RoundRobin.Proofs.Ledger
import RoundRobin.Proofs.Records
import RoundRobin.Proofs.Rotation
import RoundRobin.Proofs.Chart
import RoundRobin.Proofs.Release
import RoundRobin.Proofs.Failure
import RoundRobin.Proofs.Resumption
import RoundRobin.Proofs.Creation
import RoundRobin.Proofs.Deed
import RoundRobin.Proofs.Scope
import RoundRobin.Proofs.Mishap
import RoundRobin.Proofs.Display
import RoundRobin.Proofs.Permanence
import RoundRobin.Proofs.Veil
import RoundRobin.Proofs.Continuation
import RoundRobin.Proofs.Uncut
import RoundRobin.Proofs.Handover
import RoundRobin.Proofs.Fixtures
import RoundRobin.Proofs.Launch
import RoundRobin.Proofs.ExitCode
import RoundRobin.Proofs.Forecast
import RoundRobin.Proofs.WholeTurn
import RoundRobin.Proofs.Grammar
import RoundRobin.Proofs.Rendering
import RoundRobin.Proofs.Ample
import RoundRobin.Proofs.Saturation
import RoundRobin.Proofs.LineEnding
import RoundRobin.Proofs.Printing
import RoundRobin.Proofs.Moment
import RoundRobin.Proofs.Register
import RoundRobin.Proofs.Naming
import RoundRobin.Proofs.Survival
import RoundRobin.Proofs.Loading
import RoundRobin.Proofs.Search
import RoundRobin.Proofs.Drawing
import RoundRobin.Proofs.Table
import RoundRobin.Proofs.Dialogue
