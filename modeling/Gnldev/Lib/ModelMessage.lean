import Gnldev.Lib.JsString

/-!
# Messages with calls

The content of a message is a text, or it has parts. A part that calls a tool, or answers a call, has
the id of the call.
-/

namespace Gnldev

inductive PartKind where
  | toolCall | toolResult
  /-- Text, an image, reasoning: anything else. -/
  | other
  deriving DecidableEq

/-- A part of the content of a message; only calls and their results have an id, and some have a text. -/
structure MessagePart where
  type : PartKind
  toolCallId : JsString := []
  text : Option JsString := none
  deriving DecidableEq

inductive MessageContent where
  | text (s : JsString)
  | parts (ps : List MessagePart)
  /-- Nothing, or neither of these. -/
  | none
  deriving DecidableEq

structure ModelMessage where
  role : Option JsString
  content : MessageContent
  deriving DecidableEq

namespace ModelMessage

/-- The ids of the parts of a kind. -/
def idsIn (m : ModelMessage) (type : PartKind) : List JsString :=
  match m.content with
  | .parts ps => (ps.filter (·.type = type)).map (·.toolCallId)
  | _ => []

/-- The calls of a message, and the calls it answers. -/
def calls (m : ModelMessage) : List JsString := m.idsIn .toolCall
def results (m : ModelMessage) : List JsString := m.idsIn .toolResult

end ModelMessage

end Gnldev
