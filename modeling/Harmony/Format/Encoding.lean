import Harmony.Format.Types
import Harmony.Tokenizer.Core
import Harmony.Tokenizer.Specials

set_option autoImplicit false

namespace Harmony

def harmonyGptOss : ByteString := ascii "HarmonyGptOss"

-- The fields of `Encoding` that vary: `LoadEncoding` fills the formatting map, the cached ids and
-- the stop sets the same way every time, so they are the constants below.
structure Encoding where
  name : ByteString
  bpe : CoreBPE

-- `LoadEncoding(HarmonyGptOss)` over the pairs `tokenizer.LoadO200k` read.
def gptOss (U : UnicodeTables) (pairs : List (ByteString × Rank)) : Encoding :=
  ⟨harmonyGptOss, newCoreBPE pairs harmonySpecials (o200kNext U)⟩

def loadEncoding (U : UnicodeTables) (name : ByteString) (pairs : List (ByteString × Rank)) :
    Except ByteString Encoding :=
  if name ≠ harmonyGptOss then .error (ascii "unsupported encoding: " ++ name) else .ok (gptOss U pairs)

-- `fmtMap`
def formattingTokens : GoMap ByteString Rank :=
  ⟨[(ascii "<|start|>", tokStart), (ascii "<|message|>", tokMessage), (ascii "<|end|>", tokEnd),
    (ascii "<|return|>", tokReturn), (ascii "<|call|>", tokCall), (ascii "<|refusal|>", 0),
    (ascii "<|constrain|>", tokConstrain), (ascii "<|channel|>", tokChannel)], by decide⟩

-- `enc.idStart = fmtMap["<|start|>"]` and so on; a missing key reads as `0`.
def formattingId (name : String) : Rank := (formattingTokens.get? (ascii name)).getD 0

def idStart : Rank := formattingId "<|start|>"
def idMessage : Rank := formattingId "<|message|>"
def idEnd : Rank := formattingId "<|end|>"
def idReturn : Rank := formattingId "<|return|>"
def idCall : Rank := formattingId "<|call|>"
def idConstrain : Rank := formattingId "<|constrain|>"
def idChannel : Rank := formattingId "<|channel|>"

theorem formatting_ids :
    idStart = tokStart ∧ idMessage = tokMessage ∧ idEnd = tokEnd ∧ idReturn = tokReturn ∧
      idCall = tokCall ∧ idConstrain = tokConstrain ∧ idChannel = tokChannel := by
  decide

def stopAll : List Rank := [tokReturn, tokCall, tokEnd]

def stopAssistant : List Rank := [tokReturn, tokCall]

-- `renderFormattingToken`, which reads only the constants above: the seven names of its switch, then the
-- slow path through `fmt`.
def renderFormattingToken (name : String) (out : List Rank) : Except ByteString (List Rank) :=
  if name = "<|start|>" then .ok (out ++ [idStart])
  else if name = "<|message|>" then .ok (out ++ [idMessage])
  else if name = "<|end|>" then .ok (out ++ [idEnd])
  else if name = "<|return|>" then .ok (out ++ [idReturn])
  else if name = "<|call|>" then .ok (out ++ [idCall])
  else if name = "<|constrain|>" then .ok (out ++ [idConstrain])
  else if name = "<|channel|>" then .ok (out ++ [idChannel])
  else
    match formattingTokens.get? (ascii name) with
    | some id => if id = 0 then .error (ascii "unmapped formatting token " ++ ascii name) else .ok (out ++ [id])
    | none => .error (ascii "unmapped formatting token " ++ ascii name)

namespace Encoding

variable (e : Encoding)

-- `renderText`: `EncodeIntoOrdinary`.
def renderText (text : ByteString) (out : List Rank) : List Rank := e.bpe.encodeIntoOrdinary text out

def renderContentType (ct : ByteString) (out : List Rank) : List Rank :=
  if ascii "<|constrain|>" <+: ct then
    let out := e.renderText (ascii " ") out ++ [idConstrain]
    let rest := ct.drop (ascii "<|constrain|>").length
    if rest ≠ [] then e.renderText rest out else out
  else e.renderText (ascii " " ++ ct) out

end Encoding

end Harmony
