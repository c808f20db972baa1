import Gnldev.Durable.MemoryJournal
import Gnldev.Durable.Tool.Record
import Gnldev.Lib.LastIndex

/-!
# Retention

What belongs to a thread is deleted with it (`retention.ts`). The journal deletes by prefixes only,
and ids can hold colons: the keys of the thread `t:chat` begin as those of `t` do. So each family of
keys has a reading of whose a key is, and a key that another one begins with is deleted around it
(`deleteExactKey`).

* `threadIdOfMemKey`, `threadIdOfXthrKey`, `threadIdOfOmKey`: the readings;
* `purgeThread`: all that belongs to a thread.
-/

namespace Gnldev.Durable

variable {P : Type}

/-! ## One key -/

/-- A key is written again, if it had a value. -/
def restore (now : ℕ) (w : MemoryJournal P) : JsString × Option (JournalValue P) → MemoryJournal P
  | (k, some value) => w.put now k value
  | (_, none) => w

/-- Delete one key: those that it begins are written again. -/
def deleteExactKey (now : ℕ) (w : MemoryJournal P) (key : JsString) : ℕ × MemoryJournal P :=
  match w.get key with
  | none => (0, w)
  | some _ =>
    let neighbors := ((w.listKeys key none).filter (· ≠ key)).map fun k => (k, w.get k)
    let (deleted, w') := w.deletePrefix key
    (deleted - neighbors.length, neighbors.foldl (restore now) w')

/-- Delete keys, one by one. -/
def deleteKeys (now : ℕ) (w : MemoryJournal P) (keys : List JsString) : ℕ × MemoryJournal P :=
  keys.foldl (fun (total, w) k =>
    let (n, w) := deleteExactKey now w k
    (total + n, w)) (0, w)

theorem deleteKeys_eq (now : ℕ) (w : MemoryJournal P) (keys : List JsString) :
    deleteKeys now w keys = keys.foldl (fun e k =>
      (e.1 + (deleteExactKey now e.2 k).1, (deleteExactKey now e.2 k).2)) (0, w) := rfl

/-! ## Whose a key is -/

def MEM_PREFIX : JsString := js "mem:"
def XTHR_PREFIX : JsString := js "xthr:"
def OM_PREFIX : JsString := js "om:"

def MEM_SUFFIXES : List JsString := [js ":messages", js ":working"]

def XTHR_FAMILIES : List JsString :=
  [js ":semjudge-", js ":semtomb-", js ":sem-", js ":dup-", js ":args-"]

def OM_SUFFIXES : List JsString := [js ":observedSeq", js ":observeSeq", js ":reflectSeq"]

/-- What is before the first of the ends that a text has, if that is not empty. -/
def beforeSuffix (suffixes : List JsString) (rest : JsString) : Option JsString :=
  suffixes.findSome? fun suffix => (beforeEnd suffix rest).filter (· ≠ [])

def threadIdOfMemKey (key : JsString) : Option JsString :=
  beforeSuffix MEM_SUFFIXES (key.drop MEM_PREFIX.length)

/-- The last place where a family begins. -/
def lastFamily (rest : JsString) : Option ℕ :=
  (XTHR_FAMILIES.filterMap (List.lastIndexOf · rest)).max?

def threadIdOfXthrKey (key : JsString) : Option JsString :=
  let rest := key.drop XTHR_PREFIX.length
  match lastFamily rest with
  | some (cut + 1) => some (rest.take (cut + 1))
  | _ => none

def threadIdOfOmKey (key : JsString) : Option JsString :=
  let rest := key.drop OM_PREFIX.length
  match beforeSuffix OM_SUFFIXES rest, List.lastIndexOf (js ":proc:") rest with
  | some threadId, _ => some threadId
  | none, some (cut + 1) => some (rest.take (cut + 1))
  | none, _ => none

/-! ## Threads -/

def threadOwnerKey (threadId : JsString) : JsString := js "thread:" ++ threadId ++ js ":owner"

/-- The text without colons. -/
def escOwnerPart (v : JsString) : JsString :=
  v.flatMap fun u => if u = 0x25 then js "%25" else if u = sep then js "%3A" else [u]

def RESTHR_PREFIX : JsString := js "resthr:"

def ownershipTraceKey (resourceId threadId : JsString) : JsString :=
  RESTHR_PREFIX ++ escOwnerPart resourceId ++ js ":" ++ threadId

/-- The keys of a thread begin so, in a family of keys. -/
def threadScope (start threadId : JsString) : JsString := start ++ threadId ++ js ":"

/-- The key is the thread's: it is read so, or cannot be read and is one segment. -/
def ownThreadKey (start threadId : JsString) (ownerOf : JsString → Option JsString) (k : JsString) :
    Bool :=
  match ownerOf k with
  | some owner => owner = threadId
  | none => sep ∉ k.drop (threadScope start threadId).length

/-- Delete the keys of a thread in a family, all at once if there are none of another thread. -/
def purgeThreadNamespace (now : ℕ) (start threadId : JsString)
    (ownerOf : JsString → Option JsString) (w : MemoryJournal P) : ℕ × MemoryJournal P :=
  let keys := w.listKeys (threadScope start threadId) none
  if keys.all (ownThreadKey start threadId ownerOf) then w.deletePrefix (threadScope start threadId)
  else deleteKeys now w (keys.filter (ownThreadKey start threadId ownerOf))

/-- The trace points at the thread: what follows its first colon is the id. -/
def traceOf (threadId key : JsString) : Bool :=
  let rest := key.drop RESTHR_PREFIX.length
  sep ∈ rest ∧ (rest.dropWhile (· ≠ sep)).drop 1 = threadId

/-- Delete who owns a thread: it guards nothing any more. -/
def purgeThreadOwner (w : MemoryJournal P) (threadId : JsString) : ℕ × MemoryJournal P :=
  match w.get (threadOwnerKey threadId) with
  | some _ => w.deletePrefix (threadOwnerKey threadId)
  | none => (0, w)

/-- Delete what belongs to a thread. -/
def purgeThread (now : ℕ) (w : MemoryJournal P) (threadId : JsString) : ℕ × MemoryJournal P :=
  let (mem, w) := purgeThreadNamespace now MEM_PREFIX threadId threadIdOfMemKey w
  let (xthr, w) := purgeThreadNamespace now XTHR_PREFIX threadId threadIdOfXthrKey w
  let (om, w) := purgeThreadNamespace now OM_PREFIX threadId threadIdOfOmKey w
  let (owner, w) := purgeThreadOwner w threadId
  let (traces, w) := deleteKeys now w ((w.listKeys RESTHR_PREFIX none).filter (traceOf threadId))
  (mem + xthr + om + owner + traces, w)

end Gnldev.Durable
