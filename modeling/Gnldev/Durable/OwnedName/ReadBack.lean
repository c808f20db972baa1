import Gnldev.Durable.OwnedName

/-!
# Owned names are read back

An accepted name carries its owner: `ownerOfName` reads back what `ownedName` wrote,
whatever the strings are (`ownedName_reads_back`). What it writes for an owner has no
lone surrogate, though the owner's ids may have some: a unit of the escape is judged
by its neighbours as the unit it stands for was (`isWellFormed_escFrom`).
-/

open List

namespace Gnldev.Durable

/-! ## Well-formed strings -/

/-- Neither half of a surrogate pair. -/
def isPlain (u : UInt16) : Bool := !isHigh u && !isLow u

variable {u : UInt16}

theorem isLow_of_isHigh (h : isHigh u = true) : isLow u = false := by
  simp only [isHigh, isLow, Bool.and_eq_true, Bool.and_eq_false_iff, decide_eq_true_eq,
    decide_eq_false_iff_not, UInt16.le_iff_toNat_le] at h ⊢
  have hmax : u.toNat ≤ 0xDBFF := h.2
  exact .inl fun hmin => absurd (Nat.le_trans hmin hmax) (by decide)

theorem loneSurrogate_of_isPlain {prev : Option UInt16} {next : Option UInt16}
    (h : isPlain u = true) : loneSurrogate prev u next = false := by
  simp only [isPlain, Bool.and_eq_true, Bool.not_eq_true'] at h
  simp [loneSurrogate, h]

variable {t : JsString}

/-- Plain code units judge nothing, and nothing behind them is judged by them. -/
theorem isWellFormed_append {s : JsString} (hs : s.all isPlain) {prev : Option UInt16}
    (h : ∀ q : Option UInt16, q.any isHigh = prev.any isHigh ∨ q.any isHigh = false →
      wellFormedFrom q t = true) : wellFormedFrom prev (s ++ t) = true := by
  induction s generalizing prev with
  | nil => exact h prev (.inl rfl)
  | cons u s ih =>
    rw [all_cons, Bool.and_eq_true] at hs
    have hhigh : (some u).any isHigh = false := by
      have hu := hs.1
      simp only [isPlain, Bool.and_eq_true, Bool.not_eq_true'] at hu
      exact hu.1
    rw [cons_append, wellFormedFrom, loneSurrogate_of_isPlain hs.1]
    exact ih hs.2 fun q hq => h q (.inr (hq.elim (fun he => he.trans hhigh) id))

theorem isPlain_hex4 (u : UInt16) : (hex4 u).all isPlain = true := by
  have h : ∀ n < 16, isPlain (hexDigit n) = true := by decide
  have hu : u.toNat < 65536 := u.toNat_lt
  simp only [hex4, all_cons, all_nil, Bool.and_true, Bool.and_eq_true]
  exact ⟨h _ (by omega), h _ (by omega), h _ (by omega), h _ (by omega)⟩

/-- A code unit that is kept: it is not a lone surrogate. What is written for another is plain. -/
theorem escUnit_kept_or_plain (prev : Option UInt16) (u : UInt16) (next : Option UInt16) :
    (escUnit prev u next = [u] ∧ loneSurrogate prev u next = false) ∨
      ((escUnit prev u next).all isPlain ∧ escUnit prev u next ≠ [] ∧
        (isPlain u ∨ loneSurrogate prev u next)) := by
  unfold escUnit
  split
  · next h => exact .inr ⟨by decide, by decide, .inl (by rw [h]; decide)⟩
  · split
    · next h => exact .inr ⟨by decide, by decide, .inl (by rw [h]; decide)⟩
    · split
      · next h => exact .inr ⟨by decide, by decide, .inl (by rw [h]; decide)⟩
      · split
        · next hlone =>
          refine .inr ⟨?_, by simp [js, JsString.utf16], .inr hlone⟩
          rw [all_append, isPlain_hex4]
          decide
        · next hlone => exact .inl ⟨rfl, Bool.not_eq_true _ ▸ hlone⟩

/-- The first unit that is written is low if the first unit is, and not alone. -/
theorem head_escFrom {s : JsString} (hu : isHigh u = true) (hs : s.head?.any isLow = true) :
    (escFrom (some u) s ++ t).head?.any isLow = true := by
  cases s with
  | nil => cases hs
  | cons v s =>
    have hv : isLow v = true := hs
    have hnot : ∀ w : UInt16, isLow w = false → v ≠ w := by
      rintro w hw rfl
      rw [hv] at hw
      cases hw
    have hhigh : isHigh v = false := by
      by_contra hno
      rw [Bool.not_eq_false] at hno
      rw [isLow_of_isHigh hno] at hv
      cases hv
    have hlone : loneSurrogate (some u) v s.head? = false := by
      simp [loneSurrogate, hhigh, hu]
    rw [escFrom, escUnit, if_neg (hnot _ (by decide)), if_neg (hnot _ (by decide)),
      if_neg (hnot _ (by decide)), hlone]
    exact hv

/-- What the escape writes has no lone surrogate, behind a unit `q` that is high if the one
    before the string was, and was kept. -/
theorem isWellFormed_escFrom (ht : ∀ q, wellFormedFrom q t = true) (s : JsString)
    (prev q : Option UInt16)
    (hq : s.head?.any isLow = true → prev.any isHigh = true → q.any isHigh = true) :
    wellFormedFrom q (escFrom prev s ++ t) = true := by
  induction s generalizing prev q with
  | nil => exact ht q
  | cons u s ih =>
    rw [escFrom, append_assoc]
    rcases escUnit_kept_or_plain prev u s.head? with ⟨he, hlone⟩ | ⟨hplain, hne, hu⟩
    · rw [he, singleton_append, wellFormedFrom, ih (some u) (some u) fun _ h => h,
        Bool.and_true, Bool.not_eq_true']
      simp only [loneSurrogate, Bool.or_eq_false_iff, Bool.and_eq_false_imp, Bool.not_eq_false']
        at hlone ⊢
      exact ⟨fun hhigh => head_escFrom hhigh (hlone.1 hhigh), fun h => hq h (hlone.2 h)⟩
    · -- The unit was written otherwise: it was no half of a pair with the next one.
      refine isWellFormed_append hplain fun q' _ => ih (some u) q' fun hnext hhigh => ?_
      have hhigh : isHigh u = true := hhigh
      rcases hu with hu | hu
      · simp [isPlain, hhigh] at hu
      · simp [loneSurrogate, hhigh, isLow_of_isHigh hhigh, hnext] at hu

theorem isWellFormed_escPart (part : Option JsString) (ht : ∀ q, wellFormedFrom q t = true)
    (q : Option UInt16) : wellFormedFrom q (escPart part ++ t) = true := by
  cases part with
  | none => exact ht q
  | some s => exact isWellFormed_escFrom ht s none q fun _ h => by cases h

variable {owner : Owner}

/-- The owner part of a stored name is well-formed. -/
theorem isWellFormed_ownerPart {p : JsString} (h : ownerPart owner = .ok p) :
    isWellFormed p = true := by
  obtain ⟨rfl, -, -⟩ := ownerPart_ok h
  have hcolon : ∀ {t : JsString}, (∀ q, wellFormedFrom q t = true) →
      ∀ q, wellFormedFrom q (colon :: t) = true := fun ht q =>
    isWellFormed_append (s := [colon]) (by decide) fun q' _ => ht q'
  exact isWellFormed_append (by decide) fun q _ =>
    isWellFormed_escPart _ (hcolon (isWellFormed_escPart _ (hcolon fun _ => rfl))) q

/-! ## Reading back -/

theorem unesc_escPart {part : Option JsString} (h : part ≠ some []) :
    (if escPart part = [] then none else some (unesc (escPart part))) = part := by
  cases part with
  | none => rfl
  | some s =>
    have hne : esc s ≠ [] := fun he => h (congrArg some (esc_eq_nil he))
    rw [escPart, if_neg hne, unesc_esc]

theorem ownerOfName_append {p : JsString} (h : ownerPart owner = .ok p) (name : JsString) :
    ownerOfName (p ++ name) = (owner, name) := by
  obtain ⟨rfl, horg, hres⟩ := ownerPart_ok h
  have hmark : ∀ t : JsString, (OWNED ++ t).startsWith OWNED = true := fun t =>
    JsString.startsWith_iff.2 (prefix_append _ _)
  have hdrop : ∀ s t : JsString, (s ++ colon :: t).drop (s.length + 1) = t := fun s t => by
    rw [drop_append, drop_eq_nil_of_le (Nat.le_succ _)]
    simp
  rw [append_assoc, ownerOfName, if_pos (hmark _), drop_left]
  simp only [append_assoc, cons_append, nil_append,
    takeWhile_append_colon (colon_notMem_escPart _), hdrop]
  rw [if_pos ⟨by simp, by simp⟩, unesc_escPart horg, unesc_escPart hres]

theorem ownerOfName_ownedName {name id : JsString} (h : ownedName name owner = .ok id) :
    ownerOfName id = (owner, name) := by
  by_cases ho : owner.orgId = none ∧ owner.resourceId = none
  · rw [ownedName, if_pos ho, assertSystemName] at h
    split at h
    · cases h
    · next hs =>
      cases h
      rw [ownerOfName, if_neg hs]
      exact congrArg (·, name) (Owner.mk.injEq .. ▸ ⟨ho.1.symm, ho.2.symm⟩)
  · rw [ownedName, if_neg ho] at h
    cases hp : ownerPart owner with
    | error e =>
      rw [hp] at h
      cases h
    | ok p =>
      rw [hp] at h
      cases h
      exact ownerOfName_append hp name

/-- An owner with a name has a prefix, which begins that name. -/
theorem ownedPrefix_of_ownedName {name id : JsString} (h : ownedName name owner = .ok id)
    (ho : owner ≠ ⟨none, none⟩) :
    ∃ p, ownedPrefix owner = .ok p ∧ p <+: id := by
  rcases ownedName_ok h with ⟨rfl, -⟩ | ⟨p, hp, rfl⟩
  · exact absurd rfl ho
  · exact ⟨p, hp, prefix_append p name⟩

/-- The names of accepted owners: the owner and the name are read back, so that different ones are
    stored differently; the prefix of an owner begins the names of that owner only; and what is
    stored of an owner is well-formed. -/
theorem ownedName_reads_back (name₁ name₂ : JsString) (owner₁ owner₂ : Owner) (id₁ id₂ : JsString)
    (h₁ : ownedName name₁ owner₁ = .ok id₁) (h₂ : ownedName name₂ owner₂ = .ok id₂) :
    ownerOfName id₁ = (owner₁, name₁) ∧
      (id₁ = id₂ → owner₁ = owner₂ ∧ name₁ = name₂) ∧
      (owner₁ ≠ ⟨none, none⟩ → ∃ p, ownedPrefix owner₁ = .ok p ∧
        (id₂.startsWith p = true ↔ owner₂ = owner₁)) ∧
      ∀ p, ownerPart owner₁ = .ok p → isWellFormed p = true := by
  have hread := ownerOfName_ownedName h₁
  refine ⟨hread, ?_, fun ho => ?_, fun p hp => isWellFormed_ownerPart hp⟩
  · rintro rfl
    have hsame := hread.symm.trans (ownerOfName_ownedName h₂)
    exact ⟨congrArg Prod.fst hsame, congrArg Prod.snd hsame⟩
  · obtain ⟨p, hp, -⟩ := ownedPrefix_of_ownedName h₁ ho
    refine ⟨p, hp, fun h => ?_, ?_⟩
    · exact ownedPrefix_isPrefix_ownedName hp h₂ (JsString.startsWith_iff.1 h)
    · rintro rfl
      obtain ⟨q, hq, hpre⟩ := ownedPrefix_of_ownedName h₂ ho
      cases hp.symm.trans hq
      exact JsString.startsWith_iff.2 hpre

/-- Two users of an organization whose id has a lone surrogate. -/
theorem ownedName_reads_back_users :
    ownedName (js "a:b") ⟨some [0xD800], some (js "u")⟩ = .ok (js "~o~%uD800:u:a:b") ∧
      ownerOfName (js "~o~%uD800:u:a:b") = (⟨some [0xD800], some (js "u")⟩, js "a:b") :=
  have h₁ : ownedName (js "a:b") ⟨some [0xD800], some (js "u")⟩ = .ok (js "~o~%uD800:u:a:b") := by
    decide
  have h₂ : ownedName (js "b") ⟨some [0xD800], some (js "u:a")⟩ =
    .ok (js "~o~%uD800:u%3Aa:b") := by decide
  ⟨h₁, (ownedName_reads_back _ _ _ _ _ _ h₁ h₂).1⟩

end Gnldev.Durable
