import Harmony.Format.Types
import Harmony.Runtime.Strings

set_option autoImplicit false

namespace Harmony

open Strings

def channelMarker : ByteString := ascii "<|channel|>"

def constrainMarker : ByteString := ascii "<|constrain|>"

section Helpers

variable (U : UnicodeTables)

def normalizeHeader (s : ByteString) : ByteString :=
  let s := if contains s channelMarker then trimSpace U (replaceAll s channelMarker (ascii " " ++ channelMarker)) else s
  if contains s constrainMarker then trimSpace U (replaceAll s constrainMarker (ascii " " ++ constrainMarker))
  else s

-- `ch == ' ' || ch == '<'`
def isTokenStop (r : Nat) : Bool := r == 0x20 || r == 0x3C

def splitLeadingToken (s : ByteString) : ByteString × ByteString :=
  let stop := (indexRune isTokenStop s).getD s.length
  (s.take stop, if stop < s.length then trimSpace U (s.drop stop) else [])

def nextValueToken (input : ByteString) : ByteString :=
  let input := trimSpace U input
  if input = [] then []
  else
    let token := input.take ((indexRune isTokenStop input).getD input.length)
    if hasPrefix token (ascii "to=") || hasPrefix token (ascii "<|") then [] else token

-- `roleToken == string(role) || strings.HasPrefix(roleToken, string(role)+":")`
def isRoleToken (roleToken : ByteString) (role : Role) : Bool :=
  roleToken == role || hasPrefix roleToken (role ++ ascii ":")

def detectRoleAndAuthor (roleToken remainder : ByteString) : Role × ByteString :=
  let detected :=
    if isRoleToken roleToken roleUser then roleUser
    else if isRoleToken roleToken roleAssistant then roleAssistant
    else if isRoleToken roleToken roleSystem then roleSystem
    else if isRoleToken roleToken roleDeveloper then roleDeveloper
    else roleTool
  let name :=
    if detected = roleTool then
      let name :=
        if hasPrefix roleToken (ascii "tool:") then roleToken.drop (ascii "tool:").length
        else if roleToken = roleTool then nextValueToken U remainder
        else if roleToken ≠ [] then roleToken
        else []
      if name = [] then nextValueToken U remainder else name
    else if hasPrefix roleToken (detected ++ ascii ":") then roleToken.drop (detected.length + 1)
    else []
  (detected, name)

end Helpers

def extractChannel (s : ByteString) : ByteString :=
  match index s channelMarker with
  | some idx =>
    let after := s.drop (idx + channelMarker.length)
    match indexByte after 0x20 with
    | none => after
    | some stop => after.take stop
  | none => []

-- `extractRecipient`, whose loop stops at the first ' ' or '<' byte.
def extractRecipient (s : ByteString) : ByteString :=
  match index s (ascii " to=") with
  | some idx =>
    let after := s.drop (idx + 4)
    match after.findIdx? (fun b => b == 0x20 || b == 0x3C) with
    | none => after
    | some stop => after.take stop
  | none => []

-- The first of "assistant", "user", "system", "developer" that `ss` starts with, and ":name" after it.
def stripRolePrefix (ss : ByteString) : ByteString :=
  match [roleAssistant, roleUser, roleSystem, roleDeveloper].find? (fun r => hasPrefix ss r) with
  | none => ss
  | some r =>
    let ss := ss.drop r.length
    if hasPrefix ss (ascii ":") then
      let ss := ss.drop 1
      match indexByte ss 0x20 with
      | some sp => ss.drop sp
      | none => []
    else ss

section Scrub

variable (U : UnicodeTables)

def stripRecipient (ss : ByteString) : ByteString :=
  if hasPrefix ss (ascii "to=") then
    let after := ss.drop 3
    match indexByte after 0x20 with
    | none => []
    | some sp => trimSpace U (after.drop sp)
  else
    match index ss (ascii " to=") with
    | some idx =>
      let before := ss.take idx
      let after := ss.drop (idx + 4)
      match indexByte after 0x20 with
      | none => trimSpace U before
      | some sp => trimSpace U (before ++ after.drop sp)
    | none => ss

-- Each round removes a "<|channel|>", so `len(ss)` rounds are enough.
def stripChannels : Nat → ByteString → ByteString
  | 0, ss => ss
  | fuel + 1, ss =>
    match index ss channelMarker with
    | none => ss
    | some idx =>
      let after := ss.drop (idx + channelMarker.length)
      match indexByte after 0x20 with
      | none => stripChannels fuel (trimSpace U (ss.take idx))
      | some sp => stripChannels fuel (trimSpace U (ss.take idx ++ after.drop sp))

-- `scrubContentType(roleToken, remainder)`, which never reads `roleToken`.
def scrubContentType (_roleToken remainder : ByteString) : ByteString :=
  let ss := stripRecipient U (stripRolePrefix remainder)
  trimSpace U (stripChannels U ss.length ss)

end Scrub

structure ParsedHeader where
  author : Author
  recipient : ByteString
  channel : ByteString
  contentType : ByteString
deriving DecidableEq, Repr

-- `parseHeaderFromTokens` after decoding. A content type of "" leaves the field at "", so the guard
-- around it is left out.
def parseHeaderText (U : UnicodeTables) (nextRole : Option Role) (s : ByteString) : ParsedHeader :=
  let s := normalizeHeader U s
  let split := splitLeadingToken U s
  let detected := detectRoleAndAuthor U split.1 split.2
  let author : Author := ⟨detected.1, detected.2⟩
  let author :=
    match nextRole with
    | some r =>
      let author := { author with role := r }
      if author.role = roleTool ∧ author.name = [] then { author with name := detected.2 } else author
    | none => author
  ⟨author, extractRecipient s, extractChannel s, scrubContentType U split.1 split.2⟩

end Harmony
