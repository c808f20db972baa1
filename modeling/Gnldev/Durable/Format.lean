import Gnldev.Durable.JournalKey
import Gnldev.Lib.MergePatch

/-!
# Formats of records

The records of a run are in the shape of the engine's library, and the library changes
(`format.ts`). A record is written with the version of its shape (`stampFormat`). A reader takes the
version off, and brings an older record into the new shape (`upgradeFormat`): of version 1, the
counts of `usage` are numbers, and `finishReason` is a string; of version 2, both are objects. In
the record of a stream the same holds of its parts that end it.

Which keys are of such records is decided by how they end (`isVersionedKey`): the others are read as
they are (`ctxGet`).
-/

namespace Gnldev.Durable.Format

open JsValue

/-! ## Numbers -/

/-- A number is greater than 2. It is given by its text, so the integer part has no zeros before it,
    and the fraction none after it. -/
def exceedsTwo (text : JsString) : Bool :=
  if text = js "NaN" || text.startsWith (js "-") then false
  else if text = js "Infinity" ∨ js "e+" <:+: text then true
  else if js "e-" <:+: text then false
  else
    let int := numberOf (text.takeWhile isDigit)
    2 < int || int = 2 && 0x2E ∈ text

/-- A number is less than 2. -/
def belowTwo (text : JsString) : Bool :=
  text ≠ js "NaN" && text ≠ js "2" && !exceedsTwo text

/-! ## Upgrades -/

def USAGE : JsString := js "usage"
def FINISH_REASON : JsString := js "finishReason"
def PARTS : JsString := js "parts"
def VERSION : JsString := js "_v"
def INPUT_TOKENS : JsString := js "inputTokens"
def OUTPUT_TOKENS : JsString := js "outputTokens"

/-- `typeof v === 'object'`. -/
def typeofObject : JsValue → Bool
  | null | arr _ | obj _ => true
  | _ => false

/-- `v ?? undefined`. -/
def orUndefined (v : JsValue) : JsValue := v.coalesce undefined

/-- The counts of a call in the new shape. -/
def upgradeUsage (u : JsValue) : JsValue :=
  if u.truthy && !typeofObject (u.field INPUT_TOKENS) then
    object [
      ("inputTokens", object [("total", orUndefined (u.field INPUT_TOKENS)), ("noCache", undefined),
        ("cacheRead", orUndefined (u.field (js "cachedInputTokens"))), ("cacheWrite", undefined)]),
      ("outputTokens", object [("total", orUndefined (u.field OUTPUT_TOKENS)), ("text", undefined),
        ("reasoning", undefined)])]
  else u

def upgradeFinishReason : JsValue → JsValue
  | str s => object [("unified", str s), ("raw", str s)]
  | v => v

/-- The part ends its stream: `part?.type === 'finish'`. -/
def isFinish (part : JsValue) : Bool := (part.field (js "type")).isStr (js "finish")

mutual

/-- A field of a record in the new shape. -/
def upgradeField (name : JsString) : JsValue → JsValue
  | arr parts =>
    if name = PARTS then arr (upgradeParts parts)
    else if name = USAGE then upgradeUsage (arr parts)
    else arr parts
  | v =>
    if name = USAGE then upgradeUsage v
    else if name = FINISH_REASON then upgradeFinishReason v
    else v

def upgradeParts : List JsValue → List JsValue
  | [] => []
  | part :: parts => upgradePart part :: upgradeParts parts

/-- A part that ends its stream is upgraded as a record of version 1, without its version. -/
def upgradePart : JsValue → JsValue
  | obj part =>
    if isFinish (obj part) then obj (eraseField VERSION (upgradeFields part)) else obj part
  | v => v

/-- The fields of a record in the new shape. -/
def upgradeFields : List (JsString × JsValue) → List (JsString × JsValue)
  | [] => []
  | (name, v) :: rec => (name, upgradeField name v) :: upgradeFields rec

end

/-- From version 1 to 2: `registerFormatUpgrade(1, ..)`. -/
def upgradeOne (rec : List (JsString × JsValue)) : List (JsString × JsValue) :=
  setField VERSION (num (js "2")) (upgradeFields rec)

/-- The record cannot be read. -/
structure JournalFormatError where
  message : JsString
  deriving DecidableEq

/-- The record with its version. -/
def stampFormat (value : List (JsString × JsValue)) : List (JsString × JsValue) :=
  setField VERSION (num (js "2")) value

/-- The version of a record. One that has none is of version 1. -/
def versionOf (rec : List (JsString × JsValue)) : JsString :=
  match rec.lookup VERSION with
  | some (num text) => text
  | _ => js "1"

def newerFormat (key : Option JsString) (version : JsString) : JournalFormatError where
  message := js "journal record" ++ (key.elim [] fun key => js " (" ++ key ++ js ")") ++
    js " was written by a newer GNL (format v" ++ version ++ js "; this version reads v2). " ++
    js "Upgrade the GNL in this process — the record is not corrupted, this version just cannot " ++
    js "read it."

def noUpgrader (key : Option JsString) (version next : JsString) : JournalFormatError where
  message := js "journal record" ++ (key.elim [] fun key => js " (" ++ key ++ js ")") ++
    js " is format v" ++ version ++ js ", current is v2 — no v" ++ version ++ js "→v" ++ next ++
    js " upgrader is registered. Register a converter with registerFormatUpgrade(" ++ version ++
    js ", ...) (see the format.ts header)."

/-- A value in the new shape, without its version. The only upgrader is that of version 1. -/
def upgradeFormat (next : JsString → JsString) (key : Option JsString) :
    JsValue → Except JournalFormatError JsValue
  | obj rec =>
    let version := versionOf rec
    if exceedsTwo version then .error (newerFormat key version)
    else if belowTwo version then
      if version = js "1" then .ok (obj (eraseField VERSION (upgradeOne rec)))
      else .error (noUpgrader key version (next version))
    else .ok (obj (eraseField VERSION rec))
  | v => .ok v

/-! ## Reading -/

/-- What a call reads from: the journal, and what has been read of the run before. -/
structure DurableCtx where
  journal : JsString → Option JsValue
  replayCache : Option (JsString → Option JsValue)

/-- What is read, and what is read from afterwards: the cache serves a key once. -/
def ctxGet (next : JsString → JsString) (ctx : DurableCtx) (key : JsString) :
    Except JournalFormatError (Option JsValue) × DurableCtx :=
  match ctx.replayCache.bind (· key) with
  | some v =>
    let ctx := { ctx with
      replayCache := ctx.replayCache.map fun cache k => if k = key then none else cache k }
    if isVersionedKey key then ((upgradeFormat next (some key) v).map some, ctx)
    else (.ok (some v), ctx)
  | none =>
    match ctx.journal key with
    | some v =>
      if isVersionedKey key then ((upgradeFormat next (some key) v).map some, ctx)
      else (.ok (some v), ctx)
    | none => (.ok none, ctx)

end Gnldev.Durable.Format
