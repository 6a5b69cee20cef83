import Aex.Lib.Table
import Aex.Lib.Threads
import Aex.Lib.Tiling
import Aex.Core.Quality
import Aex.Core.Backends.CacheTransparent
import Aex.Core.Backends.Hdf5Pipeline
import Aex.Core.Backends.ZarrIndex
import Aex.Core.BlockDecode
import Aex.Core.Selection.Accept
import Aex.Core.Selection.Layout
import Aex.Core.Selection.Run
import Aex.Core.Selection.Read
import Aex.Client.Chunks
import Aex.Client.PieceFrames
import Aex.Client.PoolDelivery
import Aex.Client.RetryBudget
import Aex.Server.CallRuns
import Aex.Server.FetchLookup
import Aex.Server.PlanLifetime
import Aex.Server.Prepare
import Aex.Wire.FrameCodec
import Aex.Wire.Scatter
import Aex.Client.Fill
import Aex.Core.Selection.Slice
import Aex.Wire.ScatterGrants
import Aex.Server.Pieces
import Aex.Core.BlockAxes
import Aex.Client.PrepareMany
import Aex.Core.Backends.CacheOrder
import Aex.Server.EvictionOrder
import Aex.Core.Reduce.Extremes
import Aex.Core.Reduce.Integers
import Aex.Server.Apply
import Aex.Core.Selection.Casts
import Aex.Core.Backends.ChunkNames
import Aex.Server.ReadAhead
import Aex.Core.Backends.ZarrAttrs
import Aex.Client.Attrs
import Aex.Client.ArrayProxy
import Aex.Core.Selection.Reads
import Aex.Core.Selection.Requests
import Aex.Server.Connection
import Aex.Network.Replies
import Aex.Network.Links
import Aex.Network.Delivery
import Aex.Core.Backends.Npy
import Aex.Core.Selection.Faults
import Aex.Client.PoolClaims
import Aex.Client.PoolFailures
import Aex.Network.Failures
import Aex.Server.Handshake
import Aex.Network.Handshake
import Aex.Server.Arrivals
import Aex.Client.PoolProgress
import Aex.Network.Progress
import Aex.Core.Backends.ChunkReads
import Aex.Core.Backends.ZarrReads
import Aex.Core.Backends.Hdf5Dataset
import Aex.Core.Backends.Hdf5Reads
