import Harmony.Runtime.Utf8
import Harmony.Runtime.Maps
import Harmony.Tokenizer.Segmenter
import Harmony.Tokenizer.SegmenterLaws
import Harmony.Tokenizer.Merge
import Harmony.Tokenizer.MergeReference
import Harmony.Tokenizer.MergeRefinement
import Harmony.Tokenizer.Core
import Harmony.Tokenizer.RoundTrip
import Harmony.Tokenizer.Specials
import Harmony.Format.Types
import Harmony.Format.Encoding
import Harmony.Format.Render
import Harmony.Format.Conversation
import Harmony.Format.RenderLaws
import Harmony.Format.ConversationLaws
import Harmony.Runtime.Strings
import Harmony.Format.Header
import Harmony.Format.StreamParser
import Harmony.Format.StreamParserLaws
import Harmony.Format.ParseRender
import Harmony.Runtime.StringsLaws
import Harmony.Format.HeaderRoundTrip
import Harmony.Tokenizer.MergeInvariant
import Harmony.Tokenizer.Decoding
import Harmony.Tokenizer.TokenStore
import Harmony.Tokenizer.EncodeLoop
import Harmony.Format.ToolSchema
import Harmony.Format.StreamParserRuns
import Harmony.Tokenizer.SpecialMatch
import Harmony.Format.StreamSession
import Harmony.Tokenizer.ArenaLayout
import Harmony.Format.SchemaText
import Harmony.Format.MapOrder
import Harmony.Format.MessageJson
import Harmony.Format.ToolsSection
import Harmony.Format.MessageJsonLaws
import Harmony.Format.MessageJsonRender
import Harmony.Format.MessageJsonErrors
import Harmony.Format.MessageJsonStable
