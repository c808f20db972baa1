import Mathlib.Data.List.Basic

/-!
# Strings of UTF-16 code units

The strings of the source language: sequences of UTF-16 code units, lone
surrogates included. Keys are built by concatenation, so what is needed of them
is when two concatenations differ: `append_ne_append`.
-/

namespace Gnldev

/-- A string: its UTF-16 code units. -/
abbrev JsString := List UInt16

instance JsString.lawfulBEq : LawfulBEq JsString := inferInstance

namespace JsString

/-- The code units of a character. -/
def utf16 (c : Char) : List UInt16 :=
  if c.toNat < 0x10000 then [UInt16.ofNat c.toNat]
  else [UInt16.ofNat (0xD800 + (c.toNat - 0x10000) / 0x400),
    UInt16.ofNat (0xDC00 + (c.toNat - 0x10000) % 0x400)]

/-- `s.startsWith(p)`. -/
def startsWith (s p : JsString) : Bool := p.isPrefixOf s

theorem startsWith_iff {s p : JsString} : s.startsWith p = true ↔ p <+: s := by
  simp [startsWith]

/-- Strings with incomparable prefixes differ. -/
theorem append_ne_append {p q : JsString} (h : ¬p <+: q) (h' : ¬q <+: p) (a b : JsString) :
    p ++ a ≠ q ++ b := by
  intro e
  rcases List.prefix_or_prefix_of_prefix (List.prefix_append p a)
    (e ▸ List.prefix_append q b) with hp | hq
  · exact h hp
  · exact h' hq

/-- A string is cut at the first of a code unit in one way. -/
theorem append_cons_inj {s t a b : JsString} {u : UInt16} (hs : u ∉ s) (ht : u ∉ t)
    (h : s ++ u :: a = t ++ u :: b) : s = t ∧ a = b := by
  induction s generalizing t with
  | nil =>
    rcases t with _ | ⟨v, t⟩
    · exact ⟨rfl, (List.cons.inj h).2⟩
    · exact absurd ((List.cons.inj h).1 ▸ List.mem_cons_self) ht
  | cons v s ih =>
    rcases t with _ | ⟨v', t⟩
    · exact absurd ((List.cons.inj h).1 ▸ List.mem_cons_self) hs
    · rw [List.mem_cons, not_or] at hs ht
      obtain ⟨rfl, hrest⟩ := List.cons.inj h
      obtain ⟨rfl, rfl⟩ := ih hs.2 ht.2 hrest
      exact ⟨rfl, rfl⟩

/-- And at the last. -/
theorem append_cons_inj_last {s t a b : JsString} {u : UInt16} (ha : u ∉ a) (hb : u ∉ b)
    (h : s ++ u :: a = t ++ u :: b) : s = t ∧ a = b := by
  have hreverse : a.reverse ++ u :: s.reverse = b.reverse ++ u :: t.reverse := by
    simpa using congrArg List.reverse h
  obtain ⟨hab, hst⟩ := append_cons_inj (by simpa using ha) (by simpa using hb) hreverse
  exact ⟨List.reverse_injective hst, List.reverse_injective hab⟩

end JsString

/-- A string literal. -/
def js (s : String) : JsString := s.toList.flatMap JsString.utf16

end Gnldev
