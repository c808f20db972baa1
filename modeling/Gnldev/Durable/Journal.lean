import Gnldev.Lib.JsString
import Gnldev.Lib.Prog

/-!
# The journal

The journal is the single substrate of durability: a key-value store shared by
every worker. Its interface (`Journal`) is that of the source, over the monad of
the programs using it: `putIfAbsent` and `putIfMatch` are optional members, and
code that lacks them falls back to `get` and `put`. `claim` is the insert-only
write everything else is built on.
-/

namespace Gnldev.Durable

/-- The journal as a program sees it. `now` is the journal's clock, or the
    process's if the journal has none. -/
structure Journal (m : Type → Type) (V : Type) where
  get : JsString → m (Option V)
  put : JsString → V → m Unit
  putIfAbsent : Option (JsString → V → m Bool)
  putIfMatch : Option (JsString → V → V → m Bool)
  now : m Int

variable {m : Type → Type} [Monad m] {V : Type}

/-- Atomic claim: `putIfAbsent` if the journal has it, otherwise `get` then `put`. -/
def claim (journal : Journal m V) (key : JsString) (value : V) : m Bool :=
  match journal.putIfAbsent with
  | some putIfAbsent => putIfAbsent key value
  | none => do
    if (← journal.get key).isSome then return false
    journal.put key value
    return true

end Gnldev.Durable
