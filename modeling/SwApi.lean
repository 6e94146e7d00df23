import SwApi.HashMap.Refinement
import SwApi.HashMap.OutOfMemory
import SwApi.HashMap.Ownership
import SwApi.Queue.Conservation
import SwApi.Queue.Refinement
import SwApi.Queue.Wakeups
import SwApi.Parameter.MemoryPressure
import SwApi.Parameter.Unregister
import SwApi.Parameter.LoadOrder
import SwApi.Parameter.Readonly
import SwApi.Parameter.Autosave
import SwApi.Parameter.Realtime
import SwApi.Parameter.CrashConsistency
import SwApi.Memory.Figures
import SwApi.Memory.Contents
import SwApi.Memory.Hint
import SwApi.Memory.Sizes
import SwApi.Os.Thread
import SwApi.SwHttpServer.RequestHeader
import SwApi.Encrypt.Xxtea
import SwApi.Encrypt.Base64
import SwApi.HttpClient.RecvHeader
import SwApi.Timer.Punctual
import SwApi.Timer.Arguments
import SwApi.Timer.Waiting
import SwApi.Timer.Timeout
import SwApi.Url.Parse
import SwApi.Url.Query
import SwApi.HttpFile.Chunks
import SwApi.HttpFile.Positions
import SwApi.Coap.Build
import SwApi.CoapClient.Answers
import SwApi.CoapClient.UrlAnalysis
import SwApi.CoapClient.Options
import SwApi.CoapClient.Table
import SwApi.Json.RoundTrip
import SwApi.Json.Escapes
import SwApi.Json.Strict
import SwApi.HttpServer.Rounds
import SwApi.HttpServer.Framing
import SwApi.Dns.Query
import SwApi.Dns.Answers
import SwApi.Log.Filter
import SwApi.Log.Rotation
import SwApi.HostLookup.Calls
