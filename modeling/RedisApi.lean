import RedisApi.OrderConsumer.Stranded
import RedisApi.OrderConsumer.Shutdown
import RedisApi.OrderConsumer.AutoCommit
import RedisApi.OrderConsumer.CommitOrder
import RedisApi.OrderConsumer.DeadLetter
import RedisApi.Product.Lock
import RedisApi.Product.Recorded
import RedisApi.Product.Rollback
import RedisApi.Product.Reset
import RedisApi.Product.Linearization
import RedisApi.RateLimiter.Admission
import RedisApi.RateLimiter.KeyExpiry
import RedisApi.Auth.Positions
import RedisApi.Auth.PartialRegistration
import RedisApi.Auth.FalsePositives
import RedisApi.Auth.AdminToken
import RedisApi.Auth.RolesGuard
import RedisApi.Pipeline.System
import RedisApi.OrderConsumer.Rows
import RedisApi.Core.Executions
import RedisApi.OrderConsumer.Attempts
import RedisApi.OrderConsumer.Liveness
import RedisApi.Pipeline.Conservation
import RedisApi.Http.Pipeline
import RedisApi.Http.Service
import RedisApi.Http.Traceability
import RedisApi.Http.Traffic
import RedisApi.Product.Contention
import RedisApi.Product.Liveness
import RedisApi.Auth.Accounts
import RedisApi.Http.Registered
import RedisApi.Http.OrderRate
import RedisApi.Core.Bytes
import RedisApi.Core.RedisServer
import RedisApi.Keyspace.Parts
import RedisApi.Keyspace.SharedServer
import RedisApi.Auth.Requests
import RedisApi.Pipeline.Wire
