import RocksdbService.Json.Compare
import RocksdbService.Json.Double
import RocksdbService.Json.Grammar
import RocksdbService.Json.Reader
import RocksdbService.Json.StyledWriter
import RocksdbService.Json.Text
import RocksdbService.Json.Value
import RocksdbService.Json.Writer
import RocksdbService.Service.Client
import RocksdbService.Service.Config
import RocksdbService.Service.Leaving
import RocksdbService.Service.Memory
import RocksdbService.Service.Network
import RocksdbService.Service.Options
import RocksdbService.Service.Rocks
import RocksdbService.Service.Server
import RocksdbService.Service.Session
import RocksdbService.Service.Transfer
import RocksdbService.Theory.Families
import RocksdbService.Theory.Framing
import RocksdbService.Theory.Leaving
import RocksdbService.Theory.OrdMap
import RocksdbService.Theory.Outcome
import RocksdbService.Theory.Rounding
import RocksdbService.Theory.Run
import RocksdbService.Verify.Accepted
import RocksdbService.Verify.Answers
import RocksdbService.Verify.Batch
import RocksdbService.Verify.Blocking
import RocksdbService.Verify.Buffers
import RocksdbService.Verify.Client
import RocksdbService.Verify.Command
import RocksdbService.Verify.ConfigFile
import RocksdbService.Verify.Creation
import RocksdbService.Verify.Decimals
import RocksdbService.Verify.DocumentLength
import RocksdbService.Verify.Documented
import RocksdbService.Verify.Documents
import RocksdbService.Verify.Doubles
import RocksdbService.Verify.Effects
import RocksdbService.Verify.Escaping
import RocksdbService.Verify.Exec
import RocksdbService.Verify.Failures
import RocksdbService.Verify.GetAfterPut
import RocksdbService.Verify.Handles
import RocksdbService.Verify.InForce
import RocksdbService.Verify.Instance
import RocksdbService.Verify.Interleaving
import RocksdbService.Verify.Leaving
import RocksdbService.Verify.Lifecycle
import RocksdbService.Verify.Limits
import RocksdbService.Verify.Linearizability
import RocksdbService.Verify.Open
import RocksdbService.Verify.Ownership
import RocksdbService.Verify.Printing
import RocksdbService.Verify.PutGet
import RocksdbService.Verify.Queries
import RocksdbService.Verify.Reader
import RocksdbService.Verify.Refinement
import RocksdbService.Verify.Replies
import RocksdbService.Verify.ReplyFrames
import RocksdbService.Verify.ReplyRoom
import RocksdbService.Verify.Restarts
import RocksdbService.Verify.RoundTrip
import RocksdbService.Verify.Sessions
import RocksdbService.Verify.Spelling
import RocksdbService.Verify.Steps
import RocksdbService.Verify.StoredLength
import RocksdbService.Verify.Stream
import RocksdbService.Verify.StyledWriter
import RocksdbService.Verify.TextOrder
import RocksdbService.Verify.Tokens
import RocksdbService.Verify.Transfer
import RocksdbService.Verify.Unescaping
import RocksdbService.Verify.Utf8
