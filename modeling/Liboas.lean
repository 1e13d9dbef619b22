import Liboas.Lib.Fuel
import Liboas.Lib.Brackets
import Liboas.Compiler.Followed
import Liboas.Validator.Bounds
import Liboas.Validator.Meaning
import Liboas.Validator.Simulation
import Liboas.Validator.Alignment
import Liboas.Spec.Agreement
import Liboas.Spec.Verdict
import Liboas.Validator.Siblings
import Liboas.Parser.SchemaParser
import Liboas.Doc.Model
import Liboas.Lib.Traverse
import Liboas.Parser.Ref
import Liboas.Parser.DocParser
import Liboas.Compiler.Steps
import Liboas.Parser.Closure
import Liboas.Parser.Resolved
import Liboas.Core.Pairs
import Liboas.Core.PathMatch
import Liboas.Compiler.DocCompiler
import Liboas.Compiler.Termination
import Liboas.Validator.Silence
import Liboas.Validator.Request
import Liboas.Validator.Conformance
import Liboas.Validator.Reported
import Liboas.Parser.Kept
import Liboas.Validator.FailClosed
import Liboas.Validator.Required
import Liboas.Core.Routing
import Liboas.Validator.Dispatch
import Liboas.Validator.Discriminated
import Liboas.Validator.Mapping
import Liboas.Parser.External
import Liboas.Lib.Utf8
import Liboas.Validator.Messages
import Liboas.Validator.Problem
import Liboas.Core.Written
import Liboas.Parser.SchemaFields
import Liboas.Emitter.Schema
import Liboas.Emitter.ReadBack
import Liboas.Emitter.RoundTrip
import Liboas.Emitter.Document
import Liboas.Emitter.Security
import Liboas.Lib.OpenAddressing
import Liboas.Parser.RefCache
import Liboas.Core.Arena
import Liboas.Validator.Direction
import Liboas.Validator.Flag
import Liboas.Validator.Splice
import Liboas.Validator.Tuple
import Liboas.Validator.Additional
import Liboas.Validator.Nullable
import Liboas.Validator.Asserted
import Liboas.Validator.Independence
import Liboas.Doc.Walk
import Liboas.Parser.Documents
import Liboas.Parser.Resolver
import Liboas.Parser.Lifetime
import Liboas.Parser.Freed
import Liboas.Emitter.DocumentBack
import Liboas.Lib.Growing
import Liboas.Validator.Defaults
import Liboas.Validator.Idempotent
import Liboas.Validator.Conserved
import Liboas.Validator.SeesThrough
import Liboas.Parser.RefChain
import Liboas.Parser.Named
import Liboas.Validator.Texts
import Liboas.Validator.ContentType
import Liboas.Validator.Checks
import Liboas.Validator.StringParams
import Liboas.Core.Spelling
import Liboas.Validator.Spellings
import Liboas.Core.Exact
import Liboas.Lib.Binary64
import Liboas.Parser.BoundKeywords
import Liboas.Validator.Front
import Liboas.Validator.IntegerBounds
import Liboas.Builder.Calls
import Liboas.Doc.Maps
import Liboas.Emitter.Writable
import Liboas.Core.JsonPointer
import Liboas.Core.PairsBack
import Liboas.Core.Slashes
import Liboas.Parser.UriParts
import Liboas.Parser.UriResolve
import Liboas.Formats.DateTime
import Liboas.Formats.Hostname
import Liboas.Formats.Ipv4
import Liboas.Formats.Ipv6
import Liboas.Core.Strtod
import Liboas.Core.Negotiate
import Liboas.Builder.Sound
import Liboas.Parser.RefFree
import Liboas.Builder.RoundTrip
import Liboas.Validator.WithDefaults
import Liboas.Core.TemplateArray
import Liboas.Formats.Byte
import Liboas.Core.Intern
import Liboas.Builder.PathTable
import Liboas.Core.Strtoll
import Liboas.Parser.Fetch
import Liboas.Core.StrtodEnd
import Liboas.Parser.CoreSchema
import Liboas.Parser.Yaml
import Liboas.Validator.Linked
import Liboas.Compiler.FormatChecks
import Liboas.Validator.FormatPolicy
import Liboas.Formats.Integer
import Liboas.Validator.IntegerFormats
import Liboas.Validator.CodePoints
import Liboas.Lib.Gathering
import Liboas.Validator.EqualValues
import Liboas.Spec.Equations
import Liboas.Lib.Following
import Liboas.Parser.Redirects
import Liboas.Emitter.SameVerdict
import Liboas.Compiler.Storage
import Liboas.Compiler.StorageSafe
import Liboas.Compiler.DocStorage
import Liboas.Compiler.DocStorageSafe
import Liboas.Compiler.StorageExact
import Liboas.Compiler.DocStorageExact
import Liboas.Validator.Alike
import Liboas.Validator.Recompiled
import Liboas.Builder.Mirrored
import Liboas.Adapter.Adapter
import Liboas.Adapter.Served
import Liboas.Core.Filling
import Liboas.Adapter.Dispatch
import Liboas.Validator.Responses
import Liboas.Lib.Counting
import Liboas.Validator.Counted
import Liboas.Validator.Linear
