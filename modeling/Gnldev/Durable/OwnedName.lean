import Gnldev.Lib.JsString

/-!
# Owned names

A caller-chosen name (a job id, an event id) stored within its owner
(`owned-name.ts`): `~o~<org>:<user>:<name>`, each owner part escaped. A system
name, without an owner, is kept as it is and may not wear the marker `~o~`.

The escape (`esc_eq_replace`) is total and its inverse is `unesc` (`unesc_esc`), and its output has
no `:` (`colon_notMem_esc`); so the owner part of a name can be read back from
it, and one owner's prefix begins no other owner's name
(`ownedPrefix_isPrefix_ownedName`).
-/

open List

namespace Gnldev.Durable

/-- The marker of an owned name. -/
def OWNED : JsString := js "~o~"

/-! ## The escape -/

/-- A leading surrogate. -/
def isHigh (u : UInt16) : Bool := 0xD800 ≤ u && u ≤ 0xDBFF

/-- A trailing surrogate. -/
def isLow (u : UInt16) : Bool := 0xDC00 ≤ u && u ≤ 0xDFFF

/-- Whether a code unit, between those before and after it, matches
    `LONE_SURROGATE`. -/
def loneSurrogate (prev : Option UInt16) (u : UInt16) (next : Option UInt16) : Bool :=
  (isHigh u && !next.any isLow) || (isLow u && !prev.any isHigh)

/-- There are no lone surrogates in a text, after the code unit `prev`. -/
def wellFormedFrom : Option UInt16 → JsString → Bool
  | _, [] => true
  | prev, u :: s => !loneSurrogate prev u s.head? && wellFormedFrom (some u) s

def isWellFormed (s : JsString) : Bool := wellFormedFrom none s

/-- `%`, `:` and `~`. -/
def percent : UInt16 := 0x25
def colon : UInt16 := 0x3A
def tilde : UInt16 := 0x7E

/-- An upper-case hexadecimal digit. -/
def hexDigit (n : ℕ) : UInt16 := UInt16.ofNat (if n < 10 then 0x30 + n else 0x37 + n)

/-- `toString(16).toUpperCase()` of a surrogate. -/
def hex4 (u : UInt16) : JsString :=
  [hexDigit (u.toNat / 4096), hexDigit (u.toNat / 256 % 16), hexDigit (u.toNat / 16 % 16),
    hexDigit (u.toNat % 16)]

/-- What the escape writes for a code unit. The source replaces `%`, `:`, `~` and
    the lone surrogates in that order (`esc_eq_replace`). -/
def escUnit (prev : Option UInt16) (u : UInt16) (next : Option UInt16) : JsString :=
  if u = percent then js "%25"
  else if u = colon then js "%3A"
  else if u = tilde then js "%7E"
  else if loneSurrogate prev u next then js "%u" ++ hex4 u
  else [u]

/-- The escape of what comes after the code unit `prev`. -/
def escFrom : Option UInt16 → JsString → JsString
  | _, [] => []
  | prev, u :: s => escUnit prev u s.head? ++ escFrom (some u) s

/-- The escape of an owner part. -/
def esc (s : JsString) : JsString := escFrom none s

/-- `replace` of a code unit. -/
def replaceUnit (u : UInt16) (text : JsString) (s : JsString) : JsString :=
  s.flatMap fun v => if v = u then text else [v]

/-- `replace` of the lone surrogates in what comes after `prev`. -/
def replaceLone : Option UInt16 → JsString → JsString
  | _, [] => []
  | prev, u :: s =>
    (if loneSurrogate prev u s.head? then js "%u" ++ hex4 u else [u]) ++ replaceLone (some u) s

/-- `%`, `:` and `~` are replaced. -/
def replaceMarks (s : JsString) : JsString :=
  replaceUnit tilde (js "%7E") (replaceUnit colon (js "%3A") (replaceUnit percent (js "%25") s))

/-- No replacement touches what an earlier one wrote, -/
theorem replaceMarks_cons (u : UInt16) (s : JsString) :
    replaceMarks (u :: s) = (if u = percent then js "%25" else if u = colon then js "%3A"
      else if u = tilde then js "%7E" else [u]) ++ replaceMarks s := by
  simp only [replaceMarks, replaceUnit, flatMap_cons, flatMap_append]
  congr 1
  split_ifs with hpercent hcolon htilde
  · rfl
  · rw [flatMap_singleton, if_pos hcolon]
    rfl
  · rw [flatMap_singleton, if_neg hcolon, flatMap_singleton, if_pos htilde]
  · rw [flatMap_singleton, if_neg hcolon, flatMap_singleton, if_neg htilde]

/-- nor the neighbours a surrogate is judged by. -/
theorem any_isLow_replaceMarks (s : JsString) :
    (replaceMarks s).head?.any isLow = s.head?.any isLow := by
  rcases s with _ | ⟨u, s⟩
  · rfl
  rw [replaceMarks_cons]
  split_ifs with hpercent hcolon htilde
  · rw [hpercent]; rfl
  · rw [hcolon]; rfl
  · rw [htilde]; rfl
  · rfl

theorem replaceLone_replaceMarks (s : JsString) {prev prev' : Option UInt16}
    (h : prev'.any isHigh = prev.any isHigh) : replaceLone prev' (replaceMarks s) = escFrom prev s := by
  induction s generalizing prev prev' with
  | nil => rfl
  | cons u s ih =>
    rw [replaceMarks_cons, escFrom, escUnit]
    split_ifs with hpercent hcolon htilde hlone
    · subst hpercent
      exact congrArg (js "%25" ++ ·) (@ih (some _) (some 0x35) rfl)
    · subst hcolon
      exact congrArg (js "%3A" ++ ·) (@ih (some _) (some 0x41) rfl)
    · subst htilde
      exact congrArg (js "%7E" ++ ·) (@ih (some _) (some 0x45) rfl)
    all_goals
      have hsame : loneSurrogate prev' u (replaceMarks s).head? = loneSurrogate prev u s.head? := by
        rw [loneSurrogate, loneSurrogate, h, any_isLow_replaceMarks]
      rw [singleton_append, replaceLone, hsame, ih rfl]
    · rw [if_pos hlone]
    · rw [if_neg hlone]

/-- The escape is the chain of replacements in the source. -/
theorem esc_eq_replace (s : JsString) : esc s = replaceLone none (replaceUnit tilde (js "%7E")
    (replaceUnit colon (js "%3A") (replaceUnit percent (js "%25") s))) :=
  (replaceLone_replaceMarks s rfl).symm

/-- The value of an upper-case hexadecimal digit. -/
def hexVal (u : UInt16) : Option ℕ :=
  if 0x30 ≤ u ∧ u ≤ 0x39 then some (u.toNat - 0x30)
  else if 0x41 ≤ u ∧ u ≤ 0x46 then some (u.toNat - 0x37)
  else none

/-- Four hexadecimal digits, and the rest. -/
def readHex4 : JsString → Option (UInt16 × JsString)
  | a :: b :: c :: d :: s => do
    let w ← hexVal a
    let x ← hexVal b
    let y ← hexVal c
    let z ← hexVal d
    return (UInt16.ofNat (((w * 16 + x) * 16 + y) * 16 + z), s)
  | _ => none

/-- What follows a `%` that begins an escape, and the rest:
    `(25|3A|7E|u[0-9A-F]{4})`. -/
def readEscape : JsString → Option (UInt16 × JsString)
  | [] => none
  | a :: s =>
    if a = 0x75 then readHex4 s
    else match s with
      | [] => none
      | b :: s =>
        if [a, b] = js "25" then some (percent, s)
        else if [a, b] = js "3A" then some (colon, s)
        else if [a, b] = js "7E" then some (tilde, s)
        else none

/-- Undo the escape, in at most `n` code units. -/
def unescN : ℕ → JsString → JsString
  | 0, _ => []
  | _, [] => []
  | n + 1, u :: s =>
    if u = percent then
      match readEscape s with
      | some (v, rest) => v :: unescN n rest
      | none => u :: unescN n s
    else u :: unescN n s

/-- Undo the escape. -/
def unesc (s : JsString) : JsString := unescN s.length s

theorem hexVal_hexDigit : ∀ n < 16, hexVal (hexDigit n) = some n := by decide

theorem readHex4_hex4 (u : UInt16) (s : JsString) : readHex4 (hex4 u ++ s) = some (u, s) := by
  have hu : u.toNat < 65536 := u.toNat_lt
  have h : ((u.toNat / 4096 * 16 + u.toNat / 256 % 16) * 16 + u.toNat / 16 % 16) * 16
      + u.toNat % 16 = u.toNat := by omega
  simp only [hex4, cons_append, nil_append, readHex4]
  rw [hexVal_hexDigit _ (by omega), hexVal_hexDigit _ (by omega), hexVal_hexDigit _ (by omega),
    hexVal_hexDigit _ (by omega)]
  simp only [Option.bind_eq_bind, Option.bind_some, Option.pure_def, h, UInt16.ofNat_toNat]

/-- What the escape wrote for a code unit is read back as it. -/
theorem unescN_escUnit (n : ℕ) (prev : Option UInt16) (u : UInt16) (next : Option UInt16)
    (s : JsString) : unescN (n + 1) (escUnit prev u next ++ s) = u :: unescN n s := by
  unfold escUnit
  split
  · next h => rw [h]; rfl
  · split
    · next h => rw [h]; rfl
    · split
      · next h => rw [h]; rfl
      · split
        · rw [append_assoc]
          show (match readHex4 (hex4 u ++ s) with
            | some (v, rest) => v :: unescN n rest
            | none => percent :: unescN n (0x75 :: (hex4 u ++ s))) = _
          rw [readHex4_hex4]
        · next h _ _ _ => rw [singleton_append, unescN, if_neg h]

theorem escUnit_length_pos (prev : Option UInt16) (u : UInt16) (next : Option UInt16) :
    0 < (escUnit prev u next).length := by
  unfold escUnit
  repeat' split
  all_goals simp [js, hex4, JsString.utf16]

theorem unescN_escFrom (s : JsString) (prev : Option UInt16) (n : ℕ)
    (hn : (escFrom prev s).length ≤ n) : unescN n (escFrom prev s) = s := by
  induction s generalizing prev n with
  | nil => cases n <;> rfl
  | cons u s ih =>
    rw [escFrom, length_append] at hn
    have hpos := escUnit_length_pos prev u s.head?
    obtain ⟨n, rfl⟩ : ∃ m, n = m + 1 := ⟨n - 1, by omega⟩
    rw [escFrom, unescN_escUnit, ih (some u) n (by omega)]

theorem unesc_esc (s : JsString) : unesc (esc s) = s := unescN_escFrom s none _ (Nat.le_refl _)

theorem esc_injective {s t : JsString} (h : esc s = esc t) : s = t := by
  rw [← unesc_esc s, h, unesc_esc]

theorem esc_eq_nil {s : JsString} (h : esc s = []) : s = [] :=
  esc_injective (h.trans rfl)

theorem colon_notMem_hex4 (u : UInt16) : colon ∉ hex4 u := by
  have h : ∀ n < 16, hexDigit n ≠ colon := by decide
  have hu : u.toNat < 65536 := u.toNat_lt
  simp only [hex4, mem_cons, not_mem_nil, or_false, not_or]
  exact ⟨(h _ (by omega)).symm, (h _ (by omega)).symm, (h _ (by omega)).symm,
    (h _ (by omega)).symm⟩

theorem colon_notMem_escUnit (prev : Option UInt16) (u : UInt16) (next : Option UInt16) :
    colon ∉ escUnit prev u next := by
  unfold escUnit
  split
  · decide
  · split
    · decide
    · next hc =>
      split
      · decide
      · split
        · rw [mem_append, not_or]
          exact ⟨by decide, colon_notMem_hex4 u⟩
        · rw [mem_singleton]
          exact Ne.symm hc

theorem colon_notMem_escFrom (s : JsString) (prev : Option UInt16) : colon ∉ escFrom prev s := by
  induction s generalizing prev with
  | nil => exact not_mem_nil
  | cons u s ih =>
    rw [escFrom, mem_append, not_or]
    exact ⟨colon_notMem_escUnit prev u _, ih _⟩

theorem colon_notMem_esc (s : JsString) : colon ∉ esc s := colon_notMem_escFrom s none

/-! ## Owners and their names -/

/-- Whose a name is. -/
structure Owner where
  orgId : Option JsString
  resourceId : Option JsString
  deriving DecidableEq

/-- Why a string cannot be an owner's id. -/
inductive OwnerIdProblem where
  | length
  | controlCharacters
  | reservedPrefix
  deriving DecidableEq

/-- Prefixes a subject id may not carry. -/
def RESERVED_OWNER_PREFIXES : List JsString :=
  [js "operator:", js "application:", js "role:", js "token:"]

def MAX_OWNER_ID : ℕ := 200

/-- A control character, or a line or paragraph separator. -/
def isControl (u : UInt16) : Bool :=
  u ≤ 0x1f || (0x7f ≤ u && u ≤ 0x9f) || u = 0x2028 || u = 0x2029

/-- Why a string cannot be an end user's id, or nothing when it can. -/
def ownerIdProblem (id : JsString) : Option OwnerIdProblem :=
  if id.length = 0 ∨ id.length > MAX_OWNER_ID then some .length
  else if id.any isControl then some .controlCharacters
  else if RESERVED_OWNER_PREFIXES.any id.startsWith then some .reservedPrefix
  else none

/-- A refused name: `OwnerIdError` for a field of the owner, or the `TypeError` of
    a system name that wears the marker. -/
inductive NameError where
  | ownerId (problem : OwnerIdProblem) (field : JsString)
  | reservedMarker (name : JsString)
  deriving DecidableEq

/-- An owner part, or nothing for an absent one. -/
def escPart : Option JsString → JsString
  | none => []
  | some s => esc s

/-- The owner part of a stored name. -/
def ownerPart (owner : Owner) : Except NameError JsString :=
  if owner.orgId = some [] then .error (.ownerId .length (js "orgId"))
  else
    match owner.resourceId.bind ownerIdProblem with
    | some problem => .error (.ownerId problem (js "resourceId"))
    | none => .ok (OWNED ++ (escPart owner.orgId ++ colon :: (escPart owner.resourceId ++ [colon])))

/-- A system name may not wear the owned marker. -/
def assertSystemName (name : JsString) : Except NameError Unit :=
  if name.startsWith OWNED then .error (.reservedMarker name) else .ok ()

/-- A name stored within its owner. -/
def ownedName (name : JsString) (owner : Owner) : Except NameError JsString :=
  if owner.orgId = none ∧ owner.resourceId = none then (assertSystemName name).map fun _ => name
  else (ownerPart owner).map (· ++ name)

/-- The prefix of every name of an owner. -/
def ownedPrefix (owner : Owner) : Except NameError JsString := ownerPart owner

/-- The owner a stored name carries, and the name. -/
def ownerOfName (stored : JsString) : Owner × JsString :=
  if stored.startsWith OWNED then
    let rest := stored.drop OWNED.length
    let org := rest.takeWhile (· ≠ colon)
    let afterOrg := rest.drop (org.length + 1)
    let res := afterOrg.takeWhile (· ≠ colon)
    if colon ∈ rest ∧ colon ∈ afterOrg then
      (⟨if org = [] then none else some (unesc org), if res = [] then none else some (unesc res)⟩,
        afterOrg.drop (res.length + 1))
    else (⟨none, none⟩, stored)
  else (⟨none, none⟩, stored)

theorem takeWhile_append_colon {s : JsString} (h : colon ∉ s) (t : JsString) :
    (s ++ colon :: t).takeWhile (· ≠ colon) = s := by
  rw [takeWhile_append_of_pos fun u hu => by simpa using ne_of_mem_of_not_mem hu h,
    takeWhile_cons_of_neg (by simp), append_nil]

/-- The layout of an accepted owner part. -/
theorem ownerPart_ok {owner : Owner} {p : JsString} (h : ownerPart owner = .ok p) :
    p = OWNED ++ (escPart owner.orgId ++ colon :: (escPart owner.resourceId ++ [colon])) ∧
      owner.orgId ≠ some [] ∧ owner.resourceId ≠ some [] := by
  unfold ownerPart at h
  split at h
  · cases h
  · next horg =>
    split at h
    · cases h
    · next hres =>
      cases h
      refine ⟨rfl, horg, fun he => ?_⟩
      rw [he] at hres
      cases hres

/-- An accepted name: a system name, or the owner part and the name. -/
theorem ownedName_ok {name id : JsString} {owner : Owner} (h : ownedName name owner = .ok id) :
    (owner = ⟨none, none⟩ ∧ ¬OWNED <+: id) ∨ ∃ p, ownerPart owner = .ok p ∧ id = p ++ name := by
  unfold ownedName at h
  split at h
  · next ho =>
    left
    unfold assertSystemName at h
    split at h
    · cases h
    · next hs =>
      cases h
      rw [JsString.startsWith_iff] at hs
      exact ⟨by cases owner; simpa using ho, hs⟩
  · right
    cases hp : ownerPart owner with
    | error e => rw [hp] at h; cases h
    | ok p =>
      rw [hp] at h
      cases h
      exact ⟨p, rfl, rfl⟩

/-- Up to the first `:`, a prefix and its string agree. -/
theorem isPrefix_append_colon {a b x y : JsString} (ha : colon ∉ a) (hb : colon ∉ b)
    (h : a ++ colon :: x <+: b ++ colon :: y) : a = b ∧ x <+: y := by
  induction a generalizing b with
  | nil =>
    cases b with
    | nil => exact ⟨rfl, (cons_prefix_cons.1 h).2⟩
    | cons v b => exact absurd (cons_prefix_cons.1 h).1 (by simp_all)
  | cons u a ih =>
    cases b with
    | nil => exact absurd (cons_prefix_cons.1 h).1 (by simp_all [eq_comm])
    | cons v b =>
      obtain ⟨rfl, hab⟩ := cons_prefix_cons.1 h
      simp only [mem_cons, not_or] at ha hb
      obtain ⟨rfl, hxy⟩ := ih ha.2 hb.2 hab
      exact ⟨rfl, hxy⟩

theorem colon_notMem_escPart (s : Option JsString) : colon ∉ escPart s := by
  cases s with
  | none => exact not_mem_nil
  | some s => exact colon_notMem_esc s

theorem escPart_injective {s t : Option JsString} (hs : s ≠ some []) (ht : t ≠ some [])
    (h : escPart s = escPart t) : s = t := by
  cases s with
  | none =>
    cases t with
    | none => rfl
    | some t => exact absurd (congrArg some (esc_eq_nil h.symm)) ht
  | some s =>
    cases t with
    | none => exact absurd (congrArg some (esc_eq_nil h)) hs
    | some t => rw [esc_injective h]

/-- The prefix of an owner begins the names of that owner only. -/
theorem ownedPrefix_isPrefix_ownedName {owner other : Owner} {p id name : JsString}
    (hp : ownedPrefix owner = .ok p) (hid : ownedName name other = .ok id) (h : p <+: id) :
    other = owner := by
  obtain ⟨rfl, horg, hres⟩ := ownerPart_ok hp
  rcases ownedName_ok hid with ⟨rfl, hno⟩ | ⟨q, hq, rfl⟩
  · exact absurd ((prefix_append _ _).trans h) hno
  · obtain ⟨rfl, horg', hres'⟩ := ownerPart_ok hq
    simp only [append_assoc, cons_append, nil_append,
      prefix_append_right_inj] at h
    obtain ⟨ho, h⟩ := isPrefix_append_colon (colon_notMem_escPart _) (colon_notMem_escPart _) h
    obtain ⟨hr, -⟩ := isPrefix_append_colon (colon_notMem_escPart _) (colon_notMem_escPart _) h
    have e₁ := escPart_injective horg' horg ho.symm
    have e₂ := escPart_injective hres' hres hr.symm
    cases owner
    cases other
    exact congr (congrArg Owner.mk e₁) e₂

end Gnldev.Durable
