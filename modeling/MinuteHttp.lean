import MinuteHttp.Lib.Feed
import MinuteHttp.Libhttp.Iobuf
import MinuteHttp.Libhttp.Textint
import MinuteHttp.Libhttp.TextStore
import MinuteHttp.Libhttp.DoubleHeaded
import MinuteHttp.Libhttp.Headers
import MinuteHttp.Libhttp.Trie
import MinuteHttp.Libhttp.Uri
import MinuteHttp.Libhttp.Switch
import MinuteHttp.Libhttp.Read
import MinuteHttp.Libhttp.Turn
import MinuteHttp.Libhttp.Loop
import MinuteHttp.Libhttp.Resume
import MinuteHttp.Libhttp.Cursor
import MinuteHttp.Libhttp.Lines
import MinuteHttp.Libhttp.Store
import MinuteHttp.Libhttp.UrlText
import MinuteHttp.Libhttp.Names
import MinuteHttp.Lib.Grammar
import MinuteHttp.Libhttp.RequestLine
import MinuteHttp.Libhttp.Decode
import MinuteHttp.Libhttp.HeaderLine
import MinuteHttp.Libhttp.Interfere
import MinuteHttp.Libhttp.Letters
import MinuteHttp.Lib.Bisect
import MinuteHttp.Minuted.Tap
import MinuteHttp.Minuted.Hosts
import MinuteHttp.Tools.PatriciaBuild
import MinuteHttp.Tools.Fit
import MinuteHttp.Tools.Dump
import MinuteHttp.Lib.Population
import MinuteHttp.Minuted.Forks
import MinuteHttp.Minuted.Table
import MinuteHttp.Minuted.Log
import MinuteHttp.Minuted.Prefork
import MinuteHttp.Minuted.Steps
import MinuteHttp.Minuted.Semaphore
import MinuteHttp.Minuted.Tokens
import MinuteHttp.Minuted.Serving
import MinuteHttp.Minuted.Spares
import MinuteHttp.Lib.Dict
import MinuteHttp.Minuted.Config
import MinuteHttp.Minuted.Listeners
import MinuteHttp.Lib.Effect
import MinuteHttp.Libhttp.HttpText
import MinuteHttp.Libhttpd.IobufUtil
import MinuteHttp.Libhttpd.Httpd
import MinuteHttp.Libhttpd.Handle
import MinuteHttp.Libhttpd.Frames
import MinuteHttp.Libhttpd.Closing
import MinuteHttp.Lib.Ring
import MinuteHttp.Libhttp.Contents
import MinuteHttp.Libhttp.Release
import MinuteHttp.Libhttp.Progress
import MinuteHttp.Libhttpd.Descriptors
import MinuteHttp.Libhttpd.Position
import MinuteHttp.Libhttpd.Body
import MinuteHttp.Libhttpd.Indices
import MinuteHttp.Libhttpd.Chunk
import MinuteHttp.Libhttpd.ChunkLine
import MinuteHttp.Libhttpd.Halting
import MinuteHttp.Libhttpd.Streaming
import MinuteHttp.Libhttpd.ChunkedInput
import MinuteHttp.Libhttpd.Output
import MinuteHttp.Libhttpd.Sent
import MinuteHttp.Libhttpd.Interim
import MinuteHttp.Libhttpd.Bodyless
import MinuteHttp.Libhttpd.HeadOrder
import MinuteHttp.Lib.Framing
import MinuteHttp.Libhttpd.ChunkedBody
import MinuteHttp.Libhttpd.GenericBody
import MinuteHttp.Libhttp.Length
import MinuteHttp.Libhttp.LineEnds
import MinuteHttp.Libhttp.Flags
import MinuteHttp.Libhttp.LineNames
import MinuteHttp.Libhttp.LengthLines
import MinuteHttp.Libhttp.Blanks
import MinuteHttp.Libhttp.Selected
import MinuteHttp.Libhttp.WhiteSpace
import MinuteHttp.Libhttp.Folded
import MinuteHttp.Libhttp.Fresh
import MinuteHttp.Libhttp.Decimals
import MinuteHttp.Lib.Client
import MinuteHttp.Libhttpd.Requests
import MinuteHttp.Minuted.TapHandle
import MinuteHttp.Libhttp.UrlEnds
import MinuteHttp.Minuted.Access
import MinuteHttp.Minuted.Control
import MinuteHttp.Minuted.Dispatch
