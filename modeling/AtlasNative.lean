import AtlasNative.Catalog.ByteMap
import AtlasNative.Catalog.FreeSet
import AtlasNative.Csi.Capacity
import AtlasNative.Databridge.Forward
import AtlasNative.Engine.Erasure
import AtlasNative.Engine.Exclusive
import AtlasNative.Engine.ExportComplete
import AtlasNative.Engine.Placement
import AtlasNative.Fuse.Orderly
import AtlasNative.Fuse.Reporting
import AtlasNative.Gateway.Revocation
import AtlasNative.Monitor.Alerts
import AtlasNative.Node.Routing
import AtlasNative.Node.Transfers
import AtlasNative.Raft.Accepted
import AtlasNative.Raft.Durable
import AtlasNative.S3.Conditional
import AtlasNative.S3.Multipart
import AtlasNative.S3.OtherKeys
import AtlasNative.S3.Responses
import AtlasNative.S3.Validators
import AtlasNative.Wal.Recovery
