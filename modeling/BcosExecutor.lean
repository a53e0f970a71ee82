import BcosExecutor.DagSchedule
import BcosExecutor.FlowSchedule
import BcosExecutor.MeterSound
import BcosExecutor.InjectMeter
import BcosExecutor.Executive
import BcosExecutor.Mirror
import BcosExecutor.ExecutiveAtomic
import BcosExecutor.CallTree
import BcosExecutor.CodeIntegrity
import BcosExecutor.CodeFrames
import BcosExecutor.CodeKept
import BcosExecutor.DagExecute
import BcosExecutor.DagFilling
import BcosExecutor.DagResults
import BcosExecutor.Overlay
import BcosExecutor.StateChain
import BcosExecutor.StateChainLinks
import BcosExecutor.StateChainCommits
import BcosExecutor.OpenBlock
import BcosExecutor.CommitCompletion
import BcosExecutor.LastStorage
import BcosExecutor.GasIsolation
import BcosExecutor.ExternalRequest
import BcosExecutor.FloatFree
import BcosExecutor.DagProgress
import BcosExecutor.StaticCalls
import BcosExecutor.ParamData
import BcosExecutor.TxCriticals
import BcosExecutor.EvmBatch
import BcosExecutor.ScaleBounds
import BcosExecutor.Abi
import BcosExecutor.ReadableAbi
import BcosExecutor.ConflictKeys
import BcosExecutor.WasmAnalysis
import BcosExecutor.AbiCache
import BcosExecutor.Scale
import BcosExecutor.ScaleExact
import BcosExecutor.VarKeys
import BcosExecutor.KeyAgreement
import BcosExecutor.RequestPassage
import BcosExecutor.TableNames
import BcosExecutor.ContractAuth
import BcosExecutor.RowRuns
import BcosExecutor.PrefixCode
import BcosExecutor.ContractAuth
import BcosExecutor.DeployAuth
import BcosExecutor.MethodAuth
import BcosExecutor.DeployAuth
import BcosExecutor.MethodAuth
import BcosExecutor.DagTransfer
import BcosExecutor.DagTransferCommutes
import BcosExecutor.PrecompiledGas
import BcosExecutor.LocalEffects
import BcosExecutor.GoOutcome
import BcosExecutor.GoReturns
import BcosExecutor.GoRows
import BcosExecutor.CheckedWords
import BcosExecutor.PricedCalls
import BcosExecutor.BuiltInGas
import BcosExecutor.GasConserved
import BcosExecutor.KeyLockCoverage
import BcosExecutor.Coroutine
import BcosExecutor.MessageProtocol
import BcosExecutor.FilePaths
import BcosExecutor.FileSystem
import BcosExecutor.FileTree
import BcosExecutor.DirectoryBuilding
import BcosExecutor.FileOperations
import BcosExecutor.WasmCreations
import BcosExecutor.FileTreeRuns
import BcosExecutor.ComponentKeys
import BcosExecutor.CnsRegistry
import BcosExecutor.CnsRuns
import BcosExecutor.CnsReports
import BcosExecutor.ConsensusList
import BcosExecutor.ConsensusRuns
import BcosExecutor.Accounts
import BcosExecutor.DagLedger
import BcosExecutor.BuiltSizes
import BcosExecutor.EvmExecutors
import BcosExecutor.PayBeforeRun
import BcosExecutor.HostCalls
import BcosExecutor.KeyLockAccounting
import BcosExecutor.ReadOnlyCalls
import BcosExecutor.CheckedInjector
import BcosExecutor.MeterMemories
import BcosExecutor.ClockCacheRuns
import BcosExecutor.AdminInheritance
import BcosExecutor.AtomicDirectories
import BcosExecutor.PathSpelling
import BcosExecutor.TableDescription
import BcosExecutor.ModexpStandard
import BcosExecutor.ReadPrograms
import BcosExecutor.InputReads
import BcosExecutor.InputBounds
import BcosExecutor.AbiStandard
import BcosExecutor.AbiLookup
import BcosExecutor.CompactDecoding
import BcosExecutor.LruBlocks
import BcosExecutor.DagTransferBlocks
import BcosExecutor.FlowAccesses
import BcosExecutor.MeterPreserved
import BcosExecutor.SystemConfig
import BcosExecutor.ParallelConfig
import BcosExecutor.LockedRows
import BcosExecutor.KVTable
import BcosExecutor.NestedCalls
import BcosExecutor.MeterPays
import BcosExecutor.TypedContracts
import BcosExecutor.BlockLedger
import BcosExecutor.DirectoryListing
