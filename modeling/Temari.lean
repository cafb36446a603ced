import Temari.Aiter
import Temari.AiterCompletion
import Temari.AiterLedger
import Temari.AiterOrder
import Temari.AiterWithheld
import Temari.Base64
import Temari.BatchCalls
import Temari.BitIdentities
import Temari.BlockLoop
import Temari.BlockPlacement
import Temari.BlockSim
import Temari.BufferResidue
import Temari.Cbc
import Temari.CbcLanes
import Temari.CbcReach
import Temari.CbcTables
import Temari.Conveyor
import Temari.CutFields
import Temari.CutResponse
import Temari.CutValues
import Temari.EndSignal
import Temari.Ffi
import Temari.FlatJson
import Temari.GoChannel
import Temari.HandleSafety
import Temari.Handles
import Temari.InputReads
import Temari.JsonGrammar
import Temari.JsonPanics
import Temari.JsonReading
import Temari.JsonText
import Temari.LaneRounds
import Temari.Lanes
import Temari.LoaderAgreement
import Temari.NoFaults
import Temari.NumberedSlot
import Temari.Pool
import Temari.PoolArrivals
import Temari.PoolBuffers
import Temari.PoolCompletion
import Temari.PoolEpochs
import Temari.PoolMoves
import Temari.PoolRegions
import Temari.PoolRest
import Temari.PoolResults
import Temari.PoolSafety
import Temari.PoolShutdown
import Temari.PoolTurns
import Temari.PoolWakeup
import Temari.PoolWork
import Temari.RegionPaths
import Temari.Relational
import Temari.RetryLoop
import Temari.Rfc4648
import Temari.Round1
import Temari.Round1Reads
import Temari.Round1Sim
import Temari.Round2
import Temari.Round2Sim
import Temari.Round3
import Temari.Round3Lanes
import Temari.Round3Sim
import Temari.RoundMachine
import Temari.RoundRules
import Temari.RoundWindow
import Temari.Rounds
import Temari.Service
import Temari.ServiceCompletion
import Temari.ServiceRuns
import Temari.SharedWork
import Temari.StoreTriples
import Temari.Stream
import Temari.StreamBound
import Temari.StreamCompletion
import Temari.StreamFlush
import Temari.StreamMoves
import Temari.StreamOrder
import Temari.StreamProgress
import Temari.StreamRuns
import Temari.StreamSeats
import Temari.StreamTurns
import Temari.SubmitErrors
import Temari.TemplateAgreement
import Temari.TemplateFields
import Temari.TemplateFormat
import Temari.TemplateLoader
import Temari.Transition
import Temari.Utf8
import Temari.Wrappers
