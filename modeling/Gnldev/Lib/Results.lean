import Mathlib.Data.List.Forall2

/-!
# Results of what can fail

A computation that returns a result or an error (`Except`). What it returns is said in parts:
of two in a row (`bind_eq_ok`), and of one for each item of a list (`mapM_eq_ok_iff`), which
returns if each of them does (`exists_mapM_eq_ok_iff`).
-/

namespace Gnldev

variable {E α β : Type}

theorem bind_eq_ok {x : Except E α} {f : α → Except E β} {b : β} :
    x >>= f = .ok b ↔ ∃ a, x = .ok a ∧ f a = .ok b := by
  cases x with
  | error e => exact ⟨nofun, nofun⟩
  | ok a => exact ⟨fun h => ⟨a, rfl, h⟩, fun ⟨_, ha, h⟩ => Except.ok.inj ha ▸ h⟩

theorem map_eq_ok {x : Except E α} {f : α → β} {b : β} :
    x.map f = .ok b ↔ ∃ a, x = .ok a ∧ f a = b := by
  cases x with
  | error e => exact ⟨nofun, nofun⟩
  | ok a => exact ⟨fun h => ⟨a, rfl, Except.ok.inj h⟩, fun ⟨_, ha, h⟩ => Except.ok.inj ha ▸ h ▸ rfl⟩

variable {f : α → Except E β} {l : List α}

/-- The results of the items, in their order. -/
theorem mapM_eq_ok_iff {rs : List β} :
    l.mapM f = .ok rs ↔ List.Forall₂ (fun a r => f a = .ok r) l rs := by
  induction l generalizing rs with
  | nil =>
    rw [List.mapM_nil, List.forall₂_nil_left_iff]
    exact ⟨fun h => (Except.ok.inj h).symm, fun h => h ▸ rfl⟩
  | cons a l ih =>
    rw [List.mapM_cons, bind_eq_ok, List.forall₂_cons_left_iff]
    refine exists_congr fun r => ?_
    rw [bind_eq_ok]
    constructor
    · rintro ⟨hr, rs', hrs', h⟩
      exact ⟨rs', hr, ih.1 hrs', (Except.ok.inj h).symm⟩
    · rintro ⟨rs', hr, hrs', rfl⟩
      exact ⟨hr, rs', ih.2 hrs', rfl⟩

theorem mapM_ok {g : α → β} (h : ∀ a ∈ l, f a = .ok (g a)) : l.mapM f = .ok (l.map g) := by
  rw [mapM_eq_ok_iff, List.forall₂_map_right_iff, List.forall₂_same]
  exact h

theorem exists_forall₂_iff {R : α → β → Prop} :
    (∃ rs, List.Forall₂ R l rs) ↔ ∀ a ∈ l, ∃ r, R a r := by
  induction l with
  | nil => exact ⟨fun _ => nofun, fun _ => ⟨[], .nil⟩⟩
  | cons a l ih =>
    rw [List.forall_mem_cons, ← ih]
    constructor
    · rintro ⟨_, _ | ⟨hr, hrs⟩⟩
      exact ⟨⟨_, hr⟩, _, hrs⟩
    · rintro ⟨⟨r, hr⟩, rs, hrs⟩
      exact ⟨r :: rs, .cons hr hrs⟩

theorem forall₂_and {R S : α → β → Prop} {rs : List β} (hR : List.Forall₂ R l rs)
    (hS : List.Forall₂ S l rs) : List.Forall₂ (fun a r => R a r ∧ S a r) l rs := by
  induction hR with
  | nil => exact .nil
  | cons hr _ ih =>
    obtain ⟨hs, hrest⟩ := List.forall₂_cons.1 hS
    exact .cons ⟨hr, hs⟩ (ih hrest)

theorem exists_mapM_eq_ok_iff : (∃ rs, l.mapM f = .ok rs) ↔ ∀ a ∈ l, ∃ r, f a = .ok r := by
  rw [← exists_forall₂_iff]
  exact exists_congr fun rs => mapM_eq_ok_iff

end Gnldev
