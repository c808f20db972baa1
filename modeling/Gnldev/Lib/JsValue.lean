import Gnldev.Lib.JsString

/-!
# Values

The values of the source language, as far as they are data: no getters, symbols, big integers or
cycles, and of a function only that it is one. An error is an object with a message. What can be
asked of any value is whether it is there (`?.`, `??`), whether it holds (`truthy`), its fields, its
elements, its text and its JSON; where the language throws, the result is an error.
-/

namespace Gnldev

/-- A value. A number is given by its text. -/
inductive JsValue where
  | undefined
  | null
  | bool (b : Bool)
  | num (text : JsString)
  | str (s : JsString)
  | func
  | arr (elems : List JsValue)
  /-- The fields are in the order of the object's own keys. -/
  | obj (fields : List (JsString × JsValue))

namespace JsValue

/-- What the language throws. -/
def typeError (message : JsString) : JsValue := obj [(js "message", str message)]

def isNullish : JsValue → Bool
  | undefined | null => true
  | _ => false

/-- `v === undefined`. -/
def isUndefined : JsValue → Bool
  | undefined => true
  | _ => false

/-- `v ?? w`. -/
def coalesce (v w : JsValue) : JsValue := if v.isNullish then w else v

/-- `if (v)`. -/
def truthy : JsValue → Bool
  | undefined | null => false
  | bool b => b
  | num text => text ≠ js "0" && text ≠ js "NaN"
  | str s => s ≠ []
  | func | arr _ | obj _ => true

/-- `v === s`. -/
def isStr (v : JsValue) (s : JsString) : Bool :=
  match v with
  | str s' => s' = s
  | _ => false

/-- What `includes` compares with. No object is another one. -/
def sameValueZero : JsValue → JsValue → Bool
  | undefined, undefined | null, null => true
  | bool b, bool b' => b = b'
  | num t, num t' => t = t'
  | str s, str s' => s = s'
  | _, _ => false

/-! ## Fields and elements -/

/-- An object by its text. -/
def object (fields : List (String × JsValue)) : JsValue :=
  obj (fields.map fun (name, v) => (js name, v))

/-- `v?.name`. -/
def field (v : JsValue) (name : JsString) : JsValue :=
  match v with
  | obj fields => (fields.lookup name).getD undefined
  | _ => undefined

/-- `v.name`. -/
def read (v : JsValue) (name : JsString) : Except JsValue JsValue :=
  match v with
  | undefined =>
    .error (typeError (js "Cannot read properties of undefined (reading '" ++ name ++ js "')"))
  | null => .error (typeError (js "Cannot read properties of null (reading '" ++ name ++ js "')"))
  | v => .ok (v.field name)

section Field

variable {name name' : String} {v : JsValue} {fields : List (String × JsValue)}

theorem field_object_self : (object ((name, v) :: fields)).field (js name) = v := by
  rw [object, field, List.map_cons, List.lookup_cons_self]
  rfl

theorem field_object_of_ne (h : js name ≠ js name') :
    (object ((name', v) :: fields)).field (js name) = (object fields).field (js name) := by
  rw [object, object, field, field, List.map_cons, List.lookup_cons, beq_false_of_ne h]

end Field

/-- `if (v.length)`. -/
def hasLength : JsValue → Bool
  | str s => s ≠ []
  | arr elems => elems ≠ []
  | v => (v.field (js "length")).truthy

/-- The characters of a string, pairs of surrogates together. -/
def characters : JsString → List JsValue
  | [] => []
  | [u] => [str [u]]
  | u :: v :: s =>
    if 0xD800 ≤ u ∧ u < 0xDC00 ∧ 0xDC00 ≤ v ∧ v < 0xE000 then str [u, v] :: characters s
    else str [u] :: characters (v :: s)

/-- `for (const x of v)`. -/
def iterate : JsValue → Except JsValue (List JsValue)
  | arr elems => .ok elems
  | str s => .ok (characters s)
  | _ => .error (typeError (js "object is not iterable"))

/-! ## Texts -/

mutual

/-- `String(v)`. An object has the text of its prototype, which a field of its own hides. -/
def toText : JsValue → Except JsValue JsString
  | undefined => .ok (js "undefined")
  | null => .ok (js "null")
  | bool b => .ok (if b then js "true" else js "false")
  | num text => .ok text
  | str s => .ok s
  | func => .ok (js "function () \x7b [native code] \x7d")
  | arr elems => do return (js ",").intercalate (← elemTexts elems)
  | obj fields =>
    if (fields.lookup (js "toString")).isSome then
      .error (typeError (js "Cannot convert object to primitive value"))
    else .ok (js "[object Object]")

def elemTexts : List JsValue → Except JsValue (List JsString)
  | [] => .ok []
  | v :: vs => do return (← if v.isNullish then .ok [] else toText v) :: (← elemTexts vs)

end

/-- A hexadecimal digit. -/
def hexDigit (n : ℕ) : UInt16 := UInt16.ofNat (if n < 10 then 48 + n else 87 + n)

/-- `\u` and four digits. -/
def unicodeEscape (u : UInt16) : JsString :=
  js "\\u" ++ [hexDigit (u.toNat / 4096), hexDigit (u.toNat / 256 % 16), hexDigit (u.toNat / 16 % 16),
    hexDigit (u.toNat % 16)]

/-- A code unit in a JSON string that is not one of a pair of surrogates. -/
def quoteUnit (u : UInt16) : JsString :=
  if u = 0x08 then js "\\b"
  else if u = 0x09 then js "\\t"
  else if u = 0x0A then js "\\n"
  else if u = 0x0C then js "\\f"
  else if u = 0x0D then js "\\r"
  else if u = 0x22 then js "\\\""
  else if u = 0x5C then js "\\\\"
  else if u < 0x20 ∨ 0xD800 ≤ u ∧ u < 0xE000 then unicodeEscape u
  else [u]

def quoteUnits : JsString → JsString
  | [] => []
  | [u] => quoteUnit u
  | u :: v :: s =>
    if 0xD800 ≤ u ∧ u < 0xDC00 ∧ 0xDC00 ≤ v ∧ v < 0xE000 then u :: v :: quoteUnits s
    else quoteUnit u ++ quoteUnits (v :: s)

def quote (s : JsString) : JsString := js "\"" ++ quoteUnits s ++ js "\""

mutual

/-- `JSON.stringify(v)`, which may be `undefined`. -/
def stringify : JsValue → Option JsString
  | undefined | func => none
  | null => some (js "null")
  | bool b => some (if b then js "true" else js "false")
  | num text =>
    some (if text ∈ [js "NaN", js "Infinity", js "-Infinity"] then js "null" else text)
  | str s => some (quote s)
  | arr elems => some (js "[" ++ (js ",").intercalate (stringifyElems elems) ++ js "]")
  | obj fields => some (js "\x7b" ++ (js ",").intercalate (stringifyFields fields) ++ js "\x7d")

def stringifyElems : List JsValue → List JsString
  | [] => []
  | v :: vs => (stringify v).getD (js "null") :: stringifyElems vs

def stringifyFields : List (JsString × JsValue) → List JsString
  | [] => []
  | (name, v) :: fields =>
    ((stringify v).map fun json => quote name ++ js ":" ++ json).toList ++ stringifyFields fields

end

/-! ## What is thrown -/

/-- The value has a text. -/
def hasText (v : JsValue) : Bool := v.toText.isOk

theorem hasText_iff {v : JsValue} : v.hasText ↔ ∃ s, v.toText = .ok s := by
  rw [hasText]
  rcases v.toText with e | s <;> simp [Except.isOk, Except.toBool]

/-- `e?.message ?? e`. -/
def messageOf (e : JsValue) : JsValue := (e.field (js "message")).coalesce e

/-- Only errors are thrown whose message has a text. -/
def ThrowsText {α : Type} (x : Except JsValue α) : Prop := ∀ e, x = .error e → (messageOf e).hasText

section Throws

variable {α β : Type} {x : Except JsValue α}

theorem throwsText_ok (a : α) : ThrowsText (.ok a) := nofun

theorem messageOf_typeError (message : JsString) : messageOf (typeError message) = .str message := by
  rw [messageOf, typeError, field, List.lookup_cons_self]
  rfl

theorem throwsText_typeError (message : JsString) :
    ThrowsText (.error (typeError message) : Except JsValue α) := by
  intro e h
  obtain rfl := Except.error.inj h
  rw [messageOf_typeError]
  rfl

theorem ThrowsText.bind {f : α → Except JsValue β} (hx : ThrowsText x)
    (hf : ∀ a, ThrowsText (f a)) : ThrowsText (x >>= f) := by
  rcases x with e | a
  · intro e' h
    obtain rfl := Except.error.inj h
    exact hx e rfl
  · exact hf a

theorem throwsText_mapM {f : α → Except JsValue β} {l : List α} (hf : ∀ a, ThrowsText (f a)) :
    ThrowsText (l.mapM f) := by
  induction l with
  | nil => exact throwsText_ok []
  | cons a l ih =>
    rw [List.mapM_cons]
    exact (hf a).bind fun b => ih.bind fun bs => throwsText_ok (b :: bs)

theorem throwsText_read (v : JsValue) (name : JsString) : ThrowsText (v.read name) := by
  cases v
  case undefined => exact throwsText_typeError _
  case null => exact throwsText_typeError _
  all_goals exact throwsText_ok _

theorem throwsText_iterate (v : JsValue) : ThrowsText v.iterate := by
  cases v
  case arr => exact throwsText_ok _
  case str => exact throwsText_ok _
  all_goals exact throwsText_typeError _

mutual

theorem throwsText_toText : ∀ v : JsValue, ThrowsText v.toText
  | undefined => throwsText_ok _
  | null => throwsText_ok _
  | bool _ => throwsText_ok _
  | num _ => throwsText_ok _
  | str _ => throwsText_ok _
  | func => throwsText_ok _
  | arr elems => (throwsText_elemTexts elems).bind fun _ => throwsText_ok _
  | obj fields => by
    rw [toText]
    split
    · exact throwsText_typeError _
    · exact throwsText_ok _

theorem throwsText_elemTexts : ∀ vs : List JsValue, ThrowsText (elemTexts vs)
  | [] => throwsText_ok _
  | v :: vs => by
    have hrest (s : JsString) : ThrowsText (do return s :: (← elemTexts vs)) :=
      (throwsText_elemTexts vs).bind fun _ => throwsText_ok _
    rw [elemTexts]
    split
    · exact hrest []
    · exact (throwsText_toText v).bind hrest

end

end Throws

end JsValue

end Gnldev
