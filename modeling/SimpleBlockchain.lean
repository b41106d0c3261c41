import SimpleBlockchain.Basic
import SimpleBlockchain.PrefixCode
import SimpleBlockchain.Radix
import SimpleBlockchain.TextCodecs
import SimpleBlockchain.Variant
import SimpleBlockchain.JsonParser
import SimpleBlockchain.JsonRoundTrip
import SimpleBlockchain.FieldCodecs
import SimpleBlockchain.CryptoKeys
import SimpleBlockchain.RawPack
import SimpleBlockchain.Transaction
import SimpleBlockchain.Block
import SimpleBlockchain.HashChain
import SimpleBlockchain.SqlitePlugin
import SimpleBlockchain.Buffer
import SimpleBlockchain.ChainPlugin
import SimpleBlockchain.Lifetimes
import SimpleBlockchain.ChainInvariant
import SimpleBlockchain.CheckChain
import SimpleBlockchain.Tampering
import SimpleBlockchain.PublishFailure
import SimpleBlockchain.TipDigest
import SimpleBlockchain.Persistence
import SimpleBlockchain.Conservation
import SimpleBlockchain.Restart
import SimpleBlockchain.AdmittedTrxs
import SimpleBlockchain.PoolLimit
import SimpleBlockchain.Verdict
import SimpleBlockchain.AlteredBlock
import SimpleBlockchain.Signers
import SimpleBlockchain.ChainApi
import SimpleBlockchain.WorkFlow
import SimpleBlockchain.HttpPlugin
import SimpleBlockchain.Responses
import SimpleBlockchain.SqlLexer
import SimpleBlockchain.SqlText
import SimpleBlockchain.Backup
import SimpleBlockchain.PluginLifecycle
import SimpleBlockchain.DatabaseHandle
import SimpleBlockchain.QueryBuffers
import SimpleBlockchain.BlockQueries
import SimpleBlockchain.HexChars
import SimpleBlockchain.JsonString
import SimpleBlockchain.StringEscapes
import SimpleBlockchain.HexFields
import SimpleBlockchain.SignedBytes
import SimpleBlockchain.HostNames
import SimpleBlockchain.Simulation
import SimpleBlockchain.Ledger
import SimpleBlockchain.Exchanges
import SimpleBlockchain.ClientView
import SimpleBlockchain.LedgerRefinement
import SimpleBlockchain.LedgerRuns
import SimpleBlockchain.FaultyRuns
import SimpleBlockchain.JsonDocument
import SimpleBlockchain.DocumentReading
import SimpleBlockchain.RequestLayout
import SimpleBlockchain.ScheduledJob
import SimpleBlockchain.SensorScript
import SimpleBlockchain.ReadingRuns
