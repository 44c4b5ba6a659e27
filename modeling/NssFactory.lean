import NssFactory.Lib.Loops
import NssFactory.Lib.Ring
import NssFactory.Lib.SlidingSum
import NssFactory.Lib.Steps
import NssFactory.Lib.Calls
import NssFactory.Lib.LeastK
import NssFactory.Lib.Ledger
import NssFactory.Lib.Visits
import NssFactory.Lib.Table
import NssFactory.Lib.Trace
import NssFactory.Lib.BitMask
import NssFactory.Lib.Buffer
import NssFactory.Lib.Queues
import NssFactory.Lib.Lanes
import NssFactory.Lib.Streams
import NssFactory.Lib.CInt
import NssFactory.Lib.Strides
import NssFactory.Lib.Haar
import NssFactory.Frontend.Temporal
import NssFactory.Frontend.Contribution
import NssFactory.Frontend.FrameMemory
import NssFactory.Host.Resources
import NssFactory.Host.RollingFill
import NssFactory.Host.RollingCache
import NssFactory.Gpu.Walk
import NssFactory.Gpu.RollPlan
import NssFactory.Host.RollingInts
import NssFactory.Host.Raster
import NssFactory.Host.Workspace
import NssFactory.Host.Requests
import NssFactory.Cuda.PlaneRun
import NssFactory.Cuda.Schedule
import NssFactory.Cuda.Chunks
import NssFactory.Cuda.GpuStream
import NssFactory.Cuda.ImageRun
import NssFactory.Cuda.LsscFrame
import NssFactory.Vulkan.Uploads
import NssFactory.Vulkan.Slot
import NssFactory.Gpu.Turns
import NssFactory.Cuda.Turns
import NssFactory.Vulkan.Turns
import NssFactory.Gpu.Weights
import NssFactory.Cuda.Weights
import NssFactory.Vulkan.Batches
import NssFactory.Vulkan.Weights
import NssFactory.Gpu.WeightMaps
import NssFactory.Gpu.TurnOrder
import NssFactory.Gpu.ChunkCache
import NssFactory.Cpu.Pnlm
import NssFactory.Cpu.Match
import NssFactory.Cpu.TopK
import NssFactory.Cpu.Windows
import NssFactory.Cpu.Layers
import NssFactory.Cpu.Batch
import NssFactory.Cpu.TemporalSearch
import NssFactory.Cpu.ImageMatch
import NssFactory.Cpu.TwscImage
import NssFactory.Cpu.CommitQueue
import NssFactory.Nlm.Box
import NssFactory.Nlm.Kernels
import NssFactory.Nlm.Offsets
import NssFactory.Nlm.Stripes
import NssFactory.Nlm.Pass
import NssFactory.Cpu.JointMatch
import NssFactory.Host.Raster
import NssFactory.Host.Workspace
import NssFactory.Cpu.Bm4dHaar
import NssFactory.Lib.MinTree
import NssFactory.Cpu.SpatialBounds
import NssFactory.Lib.Cells
import NssFactory.Lib.Keyed
import NssFactory.Cpu.Bm4dMatches
import NssFactory.Cpu.Bm4dSlabs
import NssFactory.Cpu.Bm4dMatch
import NssFactory.Cpu.WeightMap
import NssFactory.Lib.Mirror
import NssFactory.Cpu.Da3dTiles
import NssFactory.Frontend.FrameScope
import NssFactory.Cpu.Bm4dNearest
import NssFactory.Lib.Arrays
import NssFactory.Cpu.LsscCluster
import NssFactory.Cpu.LsscPartition
import NssFactory.Lib.Doubles
import NssFactory.Cpu.MixedOmp
import NssFactory.Cpu.NlhMatch
import NssFactory.Cpu.PixelMatch
import NssFactory.Cpu.PixelSelect
import NssFactory.Cpu.PixelTop
import NssFactory.Cpu.PixelRows
import NssFactory.Cpu.PnlmMatch
import NssFactory.Cpu.PnlmNearest
import NssFactory.Cpu.SvdFinish
import NssFactory.Cpu.SvdFallback
import NssFactory.Lib.Lines
import NssFactory.Cpu.NlhHaar
import NssFactory.Cpu.NlhHaarExact
import NssFactory.Cuda.FixedAggregate
import NssFactory.Lib.RankOne
import NssFactory.Lib.Tiles
import NssFactory.Lib.Groups
import NssFactory.Cpu.Ksvd
import NssFactory.Cpu.Gemm
import NssFactory.Cpu.NcsrHq
import NssFactory.Cpu.NcsrRowMajor
import NssFactory.Cpu.TwscSolve
import NssFactory.Cpu.McwnnmExact
import NssFactory.Cpu.NlhFull
import NssFactory.Cpu.NlhImage
import NssFactory.Cuda.ImportCache
import NssFactory.Cuda.KsvdUpdate
import NssFactory.Cuda.SlotPipeline
import NssFactory.Cuda.SlotReads
import NssFactory.Cuda.Bm4dStores
import NssFactory.Cuda.Bm4dPlan
import NssFactory.Cuda.SlotPool
import NssFactory.Cpu.LsscReconstruct
import NssFactory.Cpu.TwscBatch
import NssFactory.Cpu.SvdBatch8
import NssFactory.Cpu.SvdEconomy
import NssFactory.Cuda.Da3dLoop
import NssFactory.Cuda.RollingAgree
