import CoherenceSim.Family
import CoherenceSim.Lib.Loop
import CoherenceSim.Step
import CoherenceSim.Move
import CoherenceSim.Run
import CoherenceSim.Safety
import CoherenceSim.Transaction
import CoherenceSim.Accounting
import CoherenceSim.Termination
import CoherenceSim.Lib.History
import CoherenceSim.Owner
import CoherenceSim.Hits
import CoherenceSim.Ghost
import CoherenceSim.Coherent
import CoherenceSim.Consistency
import CoherenceSim.SeqCst
import CoherenceSim.Untimed
import CoherenceSim.UntimedInv
import CoherenceSim.Renaming
import CoherenceSim.Refinement
import CoherenceSim.Lib.Queue
import CoherenceSim.Log
import CoherenceSim.Conservation
import CoherenceSim.Bypass
import CoherenceSim.Tracked
import CoherenceSim.MemoryOnce
import CoherenceSim.Exclusive
import CoherenceSim.Order
import CoherenceSim.LineRenaming
import CoherenceSim.Uninitialised
import CoherenceSim.Unclean
import CoherenceSim.Lib.Text
import CoherenceSim.TraceFile
import CoherenceSim.Results
import CoherenceSim.FileRun
import CoherenceSim.Lib.Server
import CoherenceSim.Latency
import CoherenceSim.Progress
import CoherenceSim.Serial
import CoherenceSim.Lib.Along
import CoherenceSim.Private
import CoherenceSim.Lib.Printing
import CoherenceSim.Output
import CoherenceSim.Transcript
import CoherenceSim.Lib.Getopt
import CoherenceSim.Program
import CoherenceSim.Supplier
import CoherenceSim.Loads
import CoherenceSim.SameRuns
import CoherenceSim.Lines
import CoherenceSim.Twice
import CoherenceSim.Dumps
import CoherenceSim.Unknown
import CoherenceSim.Sharing
