import NvdlaVp.MachineRuns
import NvdlaVp.KeyValueStore
import NvdlaVp.Numerals
import NvdlaVp.CText
import NvdlaVp.Delimited
import NvdlaVp.LastWrite
import NvdlaVp.ArgumentScan
import NvdlaVp.SerialService
import NvdlaVp.Gsgp
import NvdlaVp.CosimBridge
import NvdlaVp.CosimBridgeTickets
import NvdlaVp.CosimBridgeService
import NvdlaVp.CosimBridgeAttribution
import NvdlaVp.CosimBridgeOrder
import NvdlaVp.CosimBridgeLateResponse
import NvdlaVp.CosimBridgeTimeout
import NvdlaVp.CosimInterrupt
import NvdlaVp.CosimInterruptDelivery
import NvdlaVp.CosimInterruptRepost
import NvdlaVp.MsiInterrupt
import NvdlaVp.MsiAcknowledge
import NvdlaVp.MsiNotification
import NvdlaVp.MsiPolling
import NvdlaVp.IrqAdaptor
import NvdlaVp.ByteMemory
import NvdlaVp.FpgaBridge
import NvdlaVp.FpgaBridgeMemory
import NvdlaVp.FpgaBridgeErrors
import NvdlaVp.SharedCalls
import NvdlaVp.Adaptors
import NvdlaVp.AdaptorPath
import NvdlaVp.AdaptorSharing
import NvdlaVp.DmiMutex
import NvdlaVp.DmiMutexDiscipline
import NvdlaVp.Gp2str
import NvdlaVp.Gp2strGroups
import NvdlaVp.Gp2strDecoding
import NvdlaVp.LogControl
import NvdlaVp.LogGrammar
import NvdlaVp.LogSpacing
import NvdlaVp.LogConfiguration
import NvdlaVp.LogBranches
import NvdlaVp.CommandLine
import NvdlaVp.CommandLineAgreement
import NvdlaVp.IndexChain
import NvdlaVp.SimdbFreeList
import NvdlaVp.SimdbFreeListRuns
import NvdlaVp.BlockBytes
import NvdlaVp.SimdbBlocks
import NvdlaVp.SimdbEntries
import NvdlaVp.SimdbAllocation
import NvdlaVp.SimdbStored
import NvdlaVp.ProbeTable
import NvdlaVp.SimdbHash
import NvdlaVp.SimdbTable
import NvdlaVp.SimdbStore
import NvdlaVp.SimdbCalls
import NvdlaVp.SimdbConservation
import NvdlaVp.SimdbKeys
import NvdlaVp.StoreQueries
import NvdlaVp.SimdbVectors
import NvdlaVp.SimdbInterface
import NvdlaVp.CosimBridgeMemory
import NvdlaVp.CosimInterruptMemory
import NvdlaVp.SimdbReaders
import NvdlaVp.SimdbReadersRuns
import NvdlaVp.SimdbScan
import NvdlaVp.SimdbClearing
import NvdlaVp.SimdbRestart
import NvdlaVp.SimdbExhausted
