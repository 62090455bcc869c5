import CodingChallenges.Library.Bytes
import CodingChallenges.Library.Outcomes
import CodingChallenges.Library.CountedRuns
import CodingChallenges.Library.Fragment
import CodingChallenges.Library.BreadthFirst
import CodingChallenges.Library.Decimal
import CodingChallenges.Library.Delimiter
import CodingChallenges.Library.Framing
import CodingChallenges.Library.Utf8
import CodingChallenges.Library.InputStream
import CodingChallenges.Library.RuleTable
import CodingChallenges.Library.FullTree
import CodingChallenges.Library.OptimalTree
import CodingChallenges.Library.BitList
import CodingChallenges.Library.Traces
import CodingChallenges.Library.Sections
import CodingChallenges.Library.RoundRobin
import CodingChallenges.Library.ReadModifyWrite
import CodingChallenges.Grep.Syntax
import CodingChallenges.Grep.Parser
import CodingChallenges.Grep.Grammar
import CodingChallenges.Grep.ParserSoundness
import CodingChallenges.Grep.Nfa
import CodingChallenges.Grep.Matcher
import CodingChallenges.Grep.Plan
import CodingChallenges.Grep.Planning
import CodingChallenges.Grep.Transitions
import CodingChallenges.Grep.Assembly
import CodingChallenges.Grep.Meaning
import CodingChallenges.Grep.Denotation
import CodingChallenges.Grep.Construction
import CodingChallenges.Grep.Search
import CodingChallenges.Grep.Compiled
import CodingChallenges.Grep.Bounds
import CodingChallenges.Grep.Scan
import CodingChallenges.Grep.Leftmost
import CodingChallenges.Grep.Captures
import CodingChallenges.Grep.Backreference
import CodingChallenges.Grep.Repetition
import CodingChallenges.Grep.GroupNumbers
import CodingChallenges.Grep.Tool
import CodingChallenges.Grep.FixedString
import CodingChallenges.Grep.Decoding
import CodingChallenges.Grep.Decoders
import CodingChallenges.Grep.Printer
import CodingChallenges.Grep.PrintParse
import CodingChallenges.Grep.Selection
import CodingChallenges.Grep.Main
import CodingChallenges.Grep.Remainder
import CodingChallenges.Grep.Relabel
import CodingChallenges.Grep.LowerCase
import CodingChallenges.Grep.IgnoreCase
import CodingChallenges.Redis.RespTypes
import CodingChallenges.Redis.RespGenerator
import CodingChallenges.Redis.RespParser
import CodingChallenges.Redis.Progress
import CodingChallenges.Redis.CheckedParser
import CodingChallenges.Redis.Frames
import CodingChallenges.Redis.RoundTrip
import CodingChallenges.Redis.TcpBuffer
import CodingChallenges.Redis.Server
import CodingChallenges.Redis.Truncation
import CodingChallenges.Redis.BufferQueue
import CodingChallenges.Redis.WriteQueue
import CodingChallenges.Redis.Client
import CodingChallenges.Redis.RdbManager
import CodingChallenges.Redis.DictionaryManager
import CodingChallenges.Redis.CommandProcessor
import CodingChallenges.Redis.Accesses
import CodingChallenges.Redis.SetExpiry
import CodingChallenges.Redis.StoredValues
import CodingChallenges.Redis.Expiry
import CodingChallenges.Redis.Increments
import CodingChallenges.Redis.IncrementLaw
import CodingChallenges.Redis.ListRange
import CodingChallenges.Redis.Removal
import CodingChallenges.Redis.SharedValues
import CodingChallenges.Redis.DumpFile
import CodingChallenges.Calculator.Postfix
import CodingChallenges.Calculator.Infix
import CodingChallenges.Calculator.Tokenizer
import CodingChallenges.Calculator.Literals
import CodingChallenges.Calculator.Layout
import CodingChallenges.Calculator.Evaluate
import CodingChallenges.Calculator.Parentheses
import CodingChallenges.Calculator.Malformed
import CodingChallenges.LoadBalancer.LbClientManager
import CodingChallenges.LoadBalancer.LoadBalancer
import CodingChallenges.LoadBalancer.Replies
import CodingChallenges.LoadBalancer.HealthChecker
import CodingChallenges.LoadBalancer.HealthChecks
import CodingChallenges.Json.Parser
import CodingChallenges.Json.Grammar
import CodingChallenges.Json.Document
import CodingChallenges.Json.Completeness
import CodingChallenges.Json.Nesting
import CodingChallenges.Json.Handlers
import CodingChallenges.Json.LookAhead
import CodingChallenges.Json.Tokenizer
import CodingChallenges.Json.Suffix
import CodingChallenges.Json.Strings
import CodingChallenges.Json.Numerals
import CodingChallenges.Json.Numbers
import CodingChallenges.Json.Lossless
import CodingChallenges.Json.Texts
import CodingChallenges.Json.Main
import CodingChallenges.Compression.HuffmanTree
import CodingChallenges.Compression.Bits
import CodingChallenges.Compression.Untrusted
import CodingChallenges.Compression.SerializedTree
import CodingChallenges.Compression.Payload
import CodingChallenges.Compression.Construction
import CodingChallenges.Compression.AddressOrder
import CodingChallenges.Compression.Optimality
import CodingChallenges.Compression.Main
import CodingChallenges.Compression.Program
import CodingChallenges.Compression.RoundTrip
import CodingChallenges.Compression.Sizes
import CodingChallenges.Compression.ByteCounts
import CodingChallenges.SortTool.QuickSort
import CodingChallenges.SortTool.HeapSort
import CodingChallenges.SortTool.MergeSort
import CodingChallenges.SortTool.RadixSort
import CodingChallenges.SortTool.ThreeWay
import CodingChallenges.SortTool.RandomSort
import CodingChallenges.Library.Words
import CodingChallenges.Library.Utf8Ranges
import CodingChallenges.WordCount.Utf8Decoder
import CodingChallenges.WordCount.Codepoints
import CodingChallenges.WordCount.Output
import CodingChallenges.WordCount.WordCountV2
import CodingChallenges.WordCount.WordCount
import CodingChallenges.WordCount.Blocks
import CodingChallenges.WordCount.Agreement
import CodingChallenges.Library.Hexadecimal
import CodingChallenges.Library.PercentEncoding
import CodingChallenges.WebServer.UrlDecode
import CodingChallenges.WebServer.HttpRequestParser
import CodingChallenges.WebServer.HeaderOrder
import CodingChallenges.WebServer.Normalize
import CodingChallenges.Library.StackDepth
import CodingChallenges.WebServer.Containment
import CodingChallenges.WebServer.DotSegments
import CodingChallenges.Library.Families
import CodingChallenges.WebServer.HttpResponse
import CodingChallenges.WebServer.StaticFiles
import CodingChallenges.WebServer.WebServer
import CodingChallenges.WebServer.Sessions
import CodingChallenges.WebServer.Exchange
import CodingChallenges.CutTool.Cut
import CodingChallenges.Library.Footprints
import CodingChallenges.Library.Atomicity
import CodingChallenges.Redis.Isolation
import CodingChallenges.Redis.AtomicStore
import CodingChallenges.Library.Likeness
import CodingChallenges.Redis.Restart
import CodingChallenges.Library.Lines
import CodingChallenges.UniqTool.Uniq
import CodingChallenges.UniqTool.Main
import CodingChallenges.SortTool.Main
import CodingChallenges.Calculator.Spelling
import CodingChallenges.Calculator.Printing
import CodingChallenges.CutTool.Main
import CodingChallenges.LoadBalancer.Answers
import CodingChallenges.Redis.Conversation
