import Mathlib.Data.List.DropRight
import Mathlib.Data.List.Infix
import Gnldev.Lib.JsString

/-!
# Turns of a thread

What a run stores in the memory of its thread (`run.ts`): the rows that came in, if the thread does not
end with them already.
-/

namespace Gnldev.Durable

/-- What is known of messages. -/
structure TurnSetting (Msg : Type) where
  /-- `JSON.stringify`. -/
  stringify : Msg → JsString

/-- Does the history end with the messages? -/
def historyEndsWithIncoming {Msg : Type} (S : TurnSetting Msg) (history incoming : List Msg) : Bool :=
  incoming ≠ [] && incoming.length ≤ history.length &&
    (history.rtake incoming.length).map S.stringify = incoming.map S.stringify

end Gnldev.Durable
