import Gnldev.Durable.Network.Replays
import Mathlib.Tactic.Ring

/-!
# What a router may write

A router is a model, and its answer is any text. The first JSON object in it is the shortest text
from its first brace on in which the braces outside strings are balanced (`firstJsonObject_iff`). A
decision read from it is frozen, so an agent that it names must be one that can be run, by this call
and by every later one.

The name is looked up in an object, where the methods that every object has are found, too. So a
name like `constructor` is taken for an agent, frozen, and cannot be run. Every other answer is
refused, or can be (`router_cannot_poison`).
-/

open List

namespace Gnldev.Durable

open Prog

/-! ## Balanced braces -/

/-- The rest of a string in JSON, up to its closing quote: a backslash takes the next character with
    it. -/
inductive InString : JsString → Prop
  | close : InString [0x22]
  | escaped {c s} : InString s → InString (0x5C :: c :: s)
  | char {c s} : c ≠ 0x22 → c ≠ 0x5C → InString s → InString (c :: s)

/-- A text of whole strings and other characters, with so many more opening braces than closing ones
    outside the strings. -/
inductive Braces : JsString → ℤ → Prop
  | nil : Braces [] 0
  | string {lit s n} : InString lit → Braces s n → Braces (0x22 :: lit ++ s) n
  | opening {s n} : Braces s n → Braces (0x7B :: s) (n + 1)
  | closing {s n} : Braces s n → Braces (0x7D :: s) (n - 1)
  | char {c s n} : c ≠ 0x22 → c ≠ 0x7B → c ≠ 0x7D → Braces s n → Braces (c :: s) n

/-- The shortest part of the text from its first brace on whose braces are balanced. -/
def IsFirstObject (text s : JsString) : Prop :=
  ∃ before rest, text = before ++ 0x7B :: rest ∧ 0x7B ∉ before ∧ s <+: 0x7B :: rest ∧ s ≠ [] ∧
    Braces s 0 ∧ ∀ t, t <+: 0x7B :: rest → t ≠ [] → Braces t 0 → s <+: t

section Scan

variable {d : ℕ} {rest s lit t : JsString} {n : ℤ}

/-- A string is passed over. -/
theorem closeJson_string (h : InString lit) :
    closeJson d true false (lit ++ s) = (closeJson d false false s).map (lit ++ ·) := by
  induction h with
  | close => simp [closeJson]
  | escaped _ ih =>
    simp only [cons_append, closeJson, Bool.false_eq_true, if_false, if_true, ih, Option.map_map]
    rfl
  | char hquote hslash _ ih =>
    simp only [cons_append, closeJson, Bool.false_eq_true, if_false, if_true, if_neg hquote,
      if_neg hslash, ih, Option.map_map]
    rfl

/-- What closes the braces is found, or something before its end. -/
theorem closeJson_of_braces (h : Braces t n) (hn : n = -(d : ℤ)) (hd : 0 < d) (ht : t <+: rest) :
    ∃ s, closeJson d false false rest = some s ∧ s <+: t := by
  induction h generalizing d rest with
  | nil => omega
  | @string lit u n hlit _ ih =>
    obtain ⟨v, rfl⟩ := ht
    obtain ⟨s, hs, hsu⟩ := ih hn hd (prefix_append u v)
    refine ⟨0x22 :: lit ++ s, ?_, (prefix_append_right_inj _).2 hsu⟩
    simp [closeJson, closeJson_string hlit, hs]
  | @opening u n _ ih =>
    obtain ⟨v, rfl⟩ := ht
    obtain ⟨s, hs, hsu⟩ := ih (d := d + 1) (by push_cast; omega) (Nat.succ_pos d)
      (prefix_append u v)
    refine ⟨0x7B :: s, ?_, cons_prefix_cons.2 ⟨rfl, hsu⟩⟩
    simp [closeJson, hs]
  | @closing u n _ ih =>
    obtain ⟨v, rfl⟩ := ht
    by_cases hlast : d - 1 = 0
    · exact ⟨[0x7D], by simp [closeJson, hlast], by simp⟩
    · obtain ⟨s, hs, hsu⟩ := ih (d := d - 1) (by omega) (by omega) (prefix_append u v)
      refine ⟨0x7D :: s, ?_, cons_prefix_cons.2 ⟨rfl, hsu⟩⟩
      simp [closeJson, hlast, hs]
  | @char c u n hquote hopen hclose _ ih =>
    obtain ⟨v, rfl⟩ := ht
    obtain ⟨s, hs, hsu⟩ := ih hn hd (prefix_append u v)
    refine ⟨c :: s, ?_, cons_prefix_cons.2 ⟨rfl, hsu⟩⟩
    simp [closeJson, hquote, hopen, hclose, hs]

/-- What comes after an opening brace closes one more. -/
theorem Braces.after_opening (h : Braces (0x7B :: t) n) : Braces t (n - 1) := by
  cases h with
  | opening h => simpa using h
  | char _ hopen _ _ => exact absurd rfl hopen

/-- What is read so far of a text that the scan has gone into. -/
def Rest (d : ℕ) (s : JsString) : Bool → Bool → Prop
  | false, _ => Braces s (-(d : ℤ))
  | true, false => ∃ lit u, s = lit ++ u ∧ InString lit ∧ Braces u (-(d : ℤ))
  | true, true => ∃ c lit u, s = c :: lit ++ u ∧ InString lit ∧ Braces u (-(d : ℤ))

/-- What the scan returns is there, and closes the braces. -/
theorem closeJson_sound {inStr esc : Bool} (hesc : esc = true → inStr = true) (hd : 0 < d)
    (h : closeJson d inStr esc rest = some s) : s <+: rest ∧ Rest d s inStr esc := by
  induction rest generalizing d inStr esc s with
  | nil => simp [closeJson] at h
  | cons ch rest ih =>
    have hnext {d' : ℕ} {inStr' esc' : Bool} (hesc' : esc' = true → inStr' = true) (hd' : 0 < d')
        (h : (closeJson d' inStr' esc' rest).map (ch :: ·) = some s) :
        ∃ u, s = ch :: u ∧ ch :: u <+: ch :: rest ∧ Rest d' u inStr' esc' := by
      obtain ⟨u, hu, rfl⟩ := Option.map_eq_some_iff.1 h
      obtain ⟨hpre, hrest⟩ := ih hesc' hd' hu
      exact ⟨u, rfl, cons_prefix_cons.2 ⟨rfl, hpre⟩, hrest⟩
    have hplain {inStr' : Bool} : false = true → inStr' = true := fun h => absurd h Bool.false_ne_true
    rw [closeJson] at h
    by_cases hback : esc = true
    · -- A character after a backslash.
      obtain rfl := hback
      obtain rfl : inStr = true := hesc rfl
      rw [if_pos rfl] at h
      obtain ⟨u, rfl, hpre, lit, v, rfl, hlit, hv⟩ := hnext hplain hd h
      exact ⟨hpre, ch, lit, v, rfl, hlit, hv⟩
    rw [if_neg hback] at h
    by_cases hin : inStr = true
    · obtain rfl := hin
      obtain rfl : esc = false := by simpa using hback
      rw [if_pos rfl] at h
      split at h
      · next hslash =>
        obtain ⟨u, rfl, hpre, c, lit, v, rfl, hlit, hv⟩ := hnext (fun _ => rfl) hd h
        exact ⟨hpre, ch :: c :: lit, v, rfl, hslash ▸ .escaped hlit, hv⟩
      next hslash =>
      split at h
      · next hquote =>
        obtain ⟨u, rfl, hpre, hu⟩ := hnext hplain hd h
        exact ⟨hpre, [ch], u, rfl, hquote ▸ .close, hu⟩
      next hquote =>
      obtain ⟨u, rfl, hpre, lit, v, rfl, hlit, hv⟩ := hnext hplain hd h
      exact ⟨hpre, ch :: lit, v, rfl, .char hquote hslash hlit, hv⟩
    · obtain rfl : inStr = false := by simpa using hin
      obtain rfl : esc = false := by simpa using hback
      rw [if_neg Bool.false_ne_true] at h
      split at h
      · next hquote =>
        obtain ⟨u, rfl, hpre, lit, v, rfl, hlit, hv⟩ := hnext hplain hd h
        exact ⟨hpre, hquote ▸ Braces.string hlit hv⟩
      next hquote =>
      split at h
      · next hopen =>
        obtain ⟨u, rfl, hpre, hu⟩ := hnext hplain (Nat.succ_pos d) h
        refine ⟨hpre, ?_⟩
        have heq : -((d + 1 : ℕ) : ℤ) + 1 = -(d : ℤ) := by push_cast; ring
        subst hopen
        exact (heq ▸ Braces.opening hu : Braces (0x7B :: u) (-(d : ℤ)))
      next hopen =>
      split at h
      · next hclose =>
        split at h
        · next hlast =>
          obtain rfl := Option.some.inj h
          refine ⟨by simp, ?_⟩
          have heq : (0 : ℤ) - 1 = -(d : ℤ) := by omega
          subst hclose
          exact (heq ▸ Braces.closing .nil : Braces [0x7D] (-(d : ℤ)))
        · next hlast =>
          obtain ⟨u, rfl, hpre, hu⟩ := hnext hplain (by omega) h
          refine ⟨hpre, ?_⟩
          have heq : -((d - 1 : ℕ) : ℤ) - 1 = -(d : ℤ) := by omega
          subst hclose
          exact (heq ▸ Braces.closing hu : Braces (0x7D :: u) (-(d : ℤ)))
      next hclose =>
      obtain ⟨u, rfl, hpre, hu⟩ := hnext hplain hd h
      exact ⟨hpre, Braces.char hquote hopen hclose hu⟩

/-- The scan from an opening brace on finds the shortest text with balanced braces. -/
theorem closeJson_iff : closeJson 0 false false (0x7B :: rest) = some s ↔
    s <+: 0x7B :: rest ∧ s ≠ [] ∧ Braces s 0 ∧
      ∀ t, t <+: 0x7B :: rest → t ≠ [] → Braces t 0 → s <+: t := by
  have hopen : closeJson 0 false false (0x7B :: rest) =
      (closeJson 1 false false rest).map (0x7B :: ·) := by simp [closeJson]
  have hfound {s : JsString} (h : closeJson 0 false false (0x7B :: rest) = some s) :
      s <+: 0x7B :: rest ∧ s ≠ [] ∧ Braces s 0 := by
    rw [hopen] at h
    obtain ⟨u, hu, rfl⟩ := Option.map_eq_some_iff.1 h
    obtain ⟨hpre, hbraces⟩ := closeJson_sound (fun h => absurd h Bool.false_ne_true) Nat.one_pos hu
    exact ⟨cons_prefix_cons.2 ⟨rfl, hpre⟩, nofun, Braces.opening hbraces⟩
  have hshort {t : JsString} (ht : t <+: 0x7B :: rest) (hne : t ≠ []) (hbraces : Braces t 0) :
      ∃ s, closeJson 0 false false (0x7B :: rest) = some s ∧ s <+: t := by
    match t with
    | c :: t =>
      obtain ⟨rfl, htrest⟩ := cons_prefix_cons.1 ht
      have hrest : Braces t (-((1 : ℕ) : ℤ)) := Braces.after_opening hbraces
      obtain ⟨u, hu, hut⟩ := closeJson_of_braces hrest rfl Nat.one_pos htrest
      exact ⟨0x7B :: u, by rw [hopen, hu]; rfl, cons_prefix_cons.2 ⟨rfl, hut⟩⟩
  constructor
  · intro h
    obtain ⟨hpre, hne, hbraces⟩ := hfound h
    refine ⟨hpre, hne, hbraces, fun t ht htne htbraces => ?_⟩
    obtain ⟨s', hs', hst⟩ := hshort ht htne htbraces
    obtain rfl := Option.some.inj (h.symm.trans hs')
    exact hst
  · intro ⟨hpre, hne, hbraces, hleast⟩
    obtain ⟨s', hs', hs's⟩ := hshort hpre hne hbraces
    obtain ⟨hpre', hne', hbraces'⟩ := hfound hs'
    rwa [(hleast s' hpre' hne' hbraces').eq_of_length_le hs's.length_le]

/-- The first JSON object is the shortest balanced text from the first brace on. -/
theorem firstJsonObject_iff {text : JsString} :
    firstJsonObject text = some s ↔ IsFirstObject text s := by
  have hsplit := takeWhile_append_dropWhile (p := (· ≠ 0x7B)) (l := text)
  have hbefore : 0x7B ∉ text.takeWhile (· ≠ 0x7B) := fun h => by
    simpa using all_eq_true.1 (all_takeWhile (p := (· ≠ 0x7B)) (l := text)) _ h
  rw [firstJsonObject]
  cases htext : text.dropWhile (· ≠ 0x7B) with
  | nil =>
    rw [htext, append_nil] at hsplit
    refine ⟨nofun, fun ⟨before, rest, heq, _⟩ => absurd ?_ hbefore⟩
    rw [hsplit, heq]
    simp
  | cons c rest =>
    obtain rfl : c = 0x7B := by
      have h := head_dropWhile_not (p := (· ≠ 0x7B)) (l := text) (by rw [htext]; nofun)
      simpa only [htext, head_cons, decide_eq_false_iff_not, not_not] using h
    rw [closeJson_iff]
    constructor
    · exact fun h => ⟨_, rest, by rw [← htext, hsplit], hbefore, h⟩
    · intro ⟨before, rest', heq, hfirst, h⟩
      have hrest : text.dropWhile (· ≠ 0x7B) = 0x7B :: rest' := by
        rw [heq, dropWhile_append_of_pos fun c hc => by
          simpa using fun h : c = 0x7B => hfirst (h ▸ hc)]
        simp
      rw [← htext, hrest]
      exact h

end Scan

/-! ## What a decision names -/

/-- Where a decision leads: the agent that it names, and the task. -/
def routedTo (obj : JsValue) : Option (JsString × JsString) :=
  match (obj.field (js "action")).isStr (js "route"), asString (obj.field (js "agent")),
    asString (obj.field (js "task")) with
  | true, some agent, some task => some (agent, task)
  | _, _, _ => none

/-- A method that every object has, and no agent. -/
def IsMethod (opts : RunNetworkOptions) (name : JsString) : Prop :=
  opts.agents.lookup name = none ∧ (name ∈ OBJECT_PROTOTYPE ∨ name = js "__proto__")

/-- The text's first JSON object routes to a method. -/
def NamesMethod (opts : RunNetworkOptions) (text : JsString) : Prop :=
  ∃ s obj agent task, IsFirstObject text s ∧ opts.parseJson s = some obj ∧
    routedTo obj = some (agent, task) ∧ IsMethod opts agent

/-- The agent of a decision can be run. -/
def Runnable (opts : RunNetworkOptions) : RouteDecision → Prop
  | .route agent _ => (opts.agents.lookup agent).isSome
  | .final _ => True

section Decision

variable {opts : RunNetworkOptions} {text name agent task : JsString} {force : Bool} {obj : JsValue}

instance : Decidable (IsMethod opts name) := by unfold IsMethod; infer_instance

theorem namesMethod_iff : NamesMethod opts text ↔
    ∃ to' ∈ ((firstJsonObject text).bind opts.parseJson).bind routedTo, IsMethod opts to'.1 := by
  simp only [NamesMethod, ← firstJsonObject_iff, Option.mem_def, Option.bind_eq_some_iff]
  constructor
  · intro ⟨s, obj, agent, task, hs, hobj, hroute, hmethod⟩
    exact ⟨(agent, task), ⟨obj, ⟨s, hs, hobj⟩, hroute⟩, hmethod⟩
  · intro ⟨(agent, task), ⟨obj, ⟨s, hs, hobj⟩, hroute⟩, hmethod⟩
    exact ⟨s, obj, agent, task, hs, hobj, hroute, hmethod⟩

instance : Decidable (NamesMethod opts text) := decidable_of_iff _ namesMethod_iff.symm

/-- No action is both. -/
theorem routedTo_of_final (h : (obj.field (js "action")).isStr (js "final") = true) :
    routedTo obj = none := by
  have hroute : (obj.field (js "action")).isStr (js "route") = false := by
    cases haction : obj.field (js "action") with
    | str a =>
      rw [haction] at h
      obtain rfl : a = js "final" := by simpa [JsValue.isStr] using h
      decide
    | _ => rfl
  simp [routedTo, hroute]

/-- When a text is read as a route. -/
theorem parseDecision_route : parseDecision opts text force = .ok (.route agent task) ↔
    force = false ∧ isRegistered opts agent ∧
      ∃ s obj, firstJsonObject text = some s ∧ opts.parseJson s = some obj ∧
        routedTo obj = some (agent, task) := by
  rw [parseDecision]
  cases firstJsonObject text with
  | none => simp
  | some raw =>
    cases hobj : opts.parseJson raw with
    | none => simp [hobj]
    | some obj =>
      have hread : (∃ s obj, some raw = some s ∧ opts.parseJson s = some obj ∧
          routedTo obj = some (agent, task)) ↔ routedTo obj = some (agent, task) := by
        refine ⟨fun ⟨s, obj', hs, hobj', h⟩ => ?_, fun h => ⟨raw, obj, rfl, hobj, h⟩⟩
        obtain rfl := Option.some.inj hs
        obtain rfl := Option.some.inj (hobj.symm.trans hobj')
        exact h
      rw [hread]
      simp only [hobj]
      split
      · next hfinal _ => simp [routedTo_of_final hfinal]
      · by_cases hforce : force = true
        · simp [hforce]
        · rw [if_neg hforce, routedTo]
          split
          · split
            · next hreg => aesop
            · next hreg => aesop
          · simp

/-- A decision can be run, unless its text names a method. -/
theorem parseDecision_runnable_iff :
    (∀ d, parseDecision opts text force = .ok d → Runnable opts d) ↔
      force = true ∨ ¬NamesMethod opts text := by
  have hmethod {name : JsString} : isRegistered opts name = true ∧
      ¬(opts.agents.lookup name).isSome = true ↔ IsMethod opts name := by
    cases hname : opts.agents.lookup name <;> simp [isRegistered, IsMethod, hname]
  constructor
  · intro h
    refine or_iff_not_imp_left.2 fun hforce ⟨s, obj, agent, task, hs, hobj, hroute, hname⟩ => ?_
    have hreads : parseDecision opts text force = .ok (.route agent task) :=
      parseDecision_route.2 ⟨by simpa using hforce, (hmethod.2 hname).1, s, obj,
        firstJsonObject_iff.2 hs, hobj, hroute⟩
    exact (hmethod.2 hname).2 (h _ hreads)
  · intro h d hd
    cases d with
    | final answer => trivial
    | route agent task =>
      obtain ⟨rfl, hreg, s, obj, hs, hobj, hroute⟩ := parseDecision_route.1 hd
      by_contra hname
      exact h.resolve_left Bool.false_ne_true
        ⟨s, obj, agent, task, firstJsonObject_iff.1 hs, hobj, hroute, hmethod.1 ⟨hreg, hname⟩⟩

end Decision

/-! ## Every run -/

/-- The router names no method. What fails is the router or an agent. -/
def NamesAgents (opts : RunNetworkOptions) : (o : NetOp) → o.Res → Prop
  | .generateText i _ _, .ok text => i = none ∨ ¬NamesMethod opts text
  | .generateText .., .error e => ∃ message, e = .router message
  | .run .., .error e => ∃ message, e = .agent message
  | _, _ => True

/-- A call fails because of the router or of an agent, and of nothing that is frozen. -/
inductive NotFrozen : NetError → Prop
  | noAgents : NotFrozen .noAgents
  | router {message} : NotFrozen (.router message)
  | noDecision {message} : NotFrozen (.noDecision message)
  | agent {message} : NotFrozen (.agent message)

/-- Every frozen decision can be run. -/
def AllRunnable (opts : RunNetworkOptions) (w : NetWorld) : Prop :=
  ∀ i d, w.route i = some d → Runnable opts d

/-- The setting of the argument. -/
def runnableRG (opts : RunNetworkOptions) : RG NetOp NetOp.Res NetWorld NetAnswer Empty where
  M := netMachine
  ok _ _ o r := NamesAgents opts o r
  I := AllRunnable opts
  G j := NetWorld.Grows j

section Runs

variable {opts : RunNetworkOptions} {j : ℕ}

/-- The call goes on, or fails because of the router or of an agent. -/
abbrev GoesOn {α : Type} (opts : RunNetworkOptions) (j : ℕ) (p : NetM α) (Q : α → Prop) : Prop :=
  Tries (runnableRG opts) j (fun _ => True) p (fun a _ => Q a) fun e _ => NotFrozen e

theorem GoesOn.bind {α β : Type} {p : NetM α} {f : α → NetM β} {T : α → Prop} {Q : β → Prop}
    (h : GoesOn opts j p T) (hf : ∀ a, T a → GoesOn opts j (f a) Q) : GoesOn opts j (p >>= f) Q := by
  refine Tries.bind h fun a => ?_
  by_cases ha : T a
  · exact (hf a ha).pre fun _ _ => trivial
  · exact tries_of_false fun _ h => ha h

variable {o : NetOp}

/-- Every operation leaves the records as they are. -/
theorem grows_exec {a : NetAnswer} {w : NetWorld} :
    NetWorld.Grows j w (netMachine.exec j a o w).2 := by
  cases o with
  | claimRoute i d => exact { NetWorld.Grows.refl w with route := fun _ _ => claimAt_of_some }
  | claimStep i res => exact { NetWorld.Grows.refl w with step := fun _ _ => claimAt_of_some }
  | claimVeto i v => exact { NetWorld.Grows.refl w with veto := fun _ _ => claimAt_of_some }
  | generateText i attempt prompt => exact grows_call w
  | run i agent task nested => exact (grows_call w).trans (grows_finish _ i a.agent)
  | notify notice =>
    match notice with
    | .agentStart i _ _ false =>
      exact { NetWorld.Grows.refl w with asked := fun _ _ => ask_of_some }
    | .agentStart _ _ _ true | .agentFinish .. | .routeStart .. | .routeDecision .. | .final _ =>
      exact .refl w
  | getRoute i | getStep i | getVeto i => exact .refl w

/-- The only decisions that come are those that are claimed. -/
theorem allRunnable_exec {a : NetAnswer} {w : NetWorld} (hI : AllRunnable opts w)
    (ho : ∀ i d, o = .claimRoute i d → Runnable opts d) :
    AllRunnable opts (netMachine.exec j a o w).2 := by
  cases o with
  | claimRoute i d =>
    intro k d' hk
    rcases claimAt_eq_some hk with hk | ⟨-, rfl⟩
    · exact hI k d' hk
    · exact ho i d' rfl
  | run i agent task nested =>
    change AllRunnable opts ((w.call j).finish i a.agent)
    unfold NetWorld.finish
    split <;> exact hI
  | notify notice =>
    match notice with
    | .agentStart i _ _ false => exact hI
    | .agentStart _ _ _ true | .agentFinish .. | .routeStart .. | .routeDecision .. | .final _ =>
      exact hI
  | claimStep i res | claimVeto i v | generateText i attempt prompt | getRoute i | getStep i
  | getVeto i => exact hI

/-- What an operation does, and what it says. -/
theorem opSat_net {P : NetWorld → Prop} {T : o.Res → NetWorld → Prop}
    (ho : ∀ i d, o = .claimRoute i d → Runnable opts d)
    (hT : ∀ a w, AllRunnable opts w → P w → NamesAgents opts o (netMachine.exec j a o w).1 →
      T (netMachine.exec j a o w).1 (netMachine.exec j a o w).2) :
    (runnableRG opts).OpSat j o P T :=
  fun w a hI hw hok => ⟨allRunnable_exec hI ho, grows_exec, hT a w hI hw hok⟩

/-- An operation whose answer is used. -/
theorem goesOn_perform {T : o.Res → Prop} (ho : ∀ i d, o = .claimRoute i d → Runnable opts d)
    (hT : ∀ a w, AllRunnable opts w → T (netMachine.exec j a o w).1) :
    GoesOn opts j (performNet o) T :=
  tries_op (fun r => (RG.kept_const (T r)).stable j) (opSat_net ho fun a w hI _ _ => hT a w hI)

theorem goesOn_notify {notice : Notice} : GoesOn opts j (notify opts notice) fun _ => True := by
  rw [notify]
  split
  · exact goesOn_perform nofun fun _ _ _ => trivial
  · exact tries_pure fun _ _ _ => trivial

theorem goesOn_getRoute {i : Option ℕ} :
    GoesOn opts j (performNet (.getRoute i)) fun (r : Option RouteDecision) =>
      ∀ d, r = some d → Runnable opts d :=
  goesOn_perform nofun fun _ _ hI => hI i

theorem goesOn_generateText {i : Option ℕ} {attempt : ℕ} {prompt : JsString} :
    GoesOn opts j (generateText i attempt prompt) fun text => i = none ∨ ¬NamesMethod opts text := by
  have hop : (perform (NetOp.generateText i attempt prompt)).Sat (runnableRG opts) j (fun _ => True)
      fun r _ => NamesAgents opts (.generateText i attempt prompt) r :=
    Sat.op _ (fun r => (RG.kept_const _).stable j) (opSat_net nofun fun _ _ _ _ hok => hok)
      fun _ _ _ h => h
  refine Sat.conseq hop (fun _ _ h => h) fun r w _ h => ?_
  cases r with
  | ok text => exact h
  | error e =>
    obtain ⟨message, rfl⟩ := h
    exact .router

variable {i : ℕ} {agent task : JsString}

theorem goesOn_runAgent {nested : JsString} :
    GoesOn opts j (runAgent i agent task nested) fun _ => True := by
  have hop : (perform (NetOp.run i agent task nested)).Sat (runnableRG opts) j (fun _ => True)
      fun r _ => NamesAgents opts (.run i agent task nested) r :=
    Sat.op _ (fun r => (RG.kept_const _).stable j) (opSat_net nofun fun _ _ _ _ hok => hok)
      fun _ _ _ h => h
  refine Sat.conseq hop (fun _ _ h => h) fun r w _ h => ?_
  cases r with
  | ok out => trivial
  | error e =>
    obtain ⟨message, rfl⟩ := h
    exact .agent

/-- What the router decides can be run. -/
theorem goesOn_decideOnce {i : Option ℕ} {history : List NetworkStep} :
    GoesOn opts j (decideOnce opts i history) (Runnable opts) := by
  have hparse (text : JsString) (h : i = none ∨ ¬NamesMethod opts text) (d : RouteDecision)
      (hd : parseDecision opts text i.isNone = .ok d) : Runnable opts d :=
    parseDecision_runnable_iff.2 (h.imp_left fun h => h ▸ rfl) d hd
  unfold decideOnce
  refine goesOn_generateText.bind fun text htext => ?_
  split
  · next d hd => exact tries_pure fun _ _ _ => hparse text htext d hd
  · refine goesOn_generateText.bind fun text htext => ?_
    split
    · next d hd => exact tries_pure fun _ _ _ => hparse text htext d hd
    · exact tries_throw fun _ _ _ => .noDecision

/-- A record that is there when its claim is lost, and stays. -/
theorem stable_of_grows {P : NetWorld → Prop}
    (h : ∀ k w w', NetWorld.Grows k w w' → P w → P w') : (runnableRG opts).Stable j P :=
  RG.Kept.stable ⟨fun k w w' _ _ hG => h k w w' hG, fun e => e.elim⟩ j

/-- The frozen decision of a turn can be run. -/
theorem goesOn_frozenDecision {i : Option ℕ} {history : List NetworkStep} :
    GoesOn opts j (frozenDecision opts i history) (Runnable opts) := by
  unfold frozenDecision
  refine goesOn_getRoute.bind fun found hfound => ?_
  cases found with
  | some d => exact tries_pure fun _ _ _ => hfound d rfl
  | none =>
    refine goesOn_decideOnce.bind fun d hd => ?_
    have hclaim : Tries (runnableRG opts) j (fun _ => True) (performNet (.claimRoute i d))
        (fun _ w => ∃ d, w.route i = some d) fun e _ => NotFrozen e := by
      refine tries_op (fun _ => stable_of_grows fun _ _ _ h ⟨d, hd⟩ => ⟨d, h.route i d hd⟩)
        (opSat_net (fun _ _ h => by cases h; exact hd) fun a w _ _ _ => ?_)
      exact ⟨_, claimAt_self w.route i d⟩
    refine hclaim.bind fun won => ?_
    cases won with
    | true => exact tries_pure fun _ _ _ => hd
    | false =>
      have hget : Tries (runnableRG opts) j (fun w => ∃ d, w.route i = some d)
          (performNet (.getRoute i))
          (fun (r : Option RouteDecision) _ => ∃ d, r = some d ∧ Runnable opts d)
          fun e _ => NotFrozen e := by
        refine tries_op (fun _ => (RG.kept_const _).stable j) (opSat_net nofun ?_)
        exact fun a w hI ⟨d, hd⟩ _ => ⟨d, hd, hI i d hd⟩
      refine hget.bind fun winner => ?_
      cases winner with
      | some d =>
        refine tries_pure fun _ _ ⟨d', hd', hrun⟩ => ?_
        obtain rfl := Option.some.inj hd'
        exact hrun
      | none => exact tries_of_false fun _ ⟨_, h, _⟩ => nomatch h

theorem goesOn_freezeStep {res : TaskResult} :
    GoesOn opts j (freezeStep i res) fun _ => True := by
  unfold freezeStep
  have hclaim : Tries (runnableRG opts) j (fun _ => True) (performNet (.claimStep i res))
      (fun _ w => ∃ res, w.step i = some res) fun e _ => NotFrozen e := by
    refine tries_op (fun _ => stable_of_grows fun _ _ _ h ⟨d, hd⟩ => ⟨d, h.step i d hd⟩)
      (opSat_net nofun fun a w _ _ _ => ?_)
    exact ⟨_, claimAt_self w.step i res⟩
  refine hclaim.bind fun won => ?_
  cases won with
  | true => exact tries_pure fun _ _ _ => trivial
  | false =>
    have hget : Tries (runnableRG opts) j (fun w => ∃ res, w.step i = some res)
        (performNet (.getStep i)) (fun (r : Option TaskResult) _ => ∃ res, r = some res)
        fun e _ => NotFrozen e :=
      tries_op (fun _ => (RG.kept_const _).stable j) (opSat_net nofun fun a w _ h _ => h)
    refine hget.bind fun winner => ?_
    cases winner with
    | some res => exact tries_pure fun _ _ _ => trivial
    | none => exact tries_of_false fun _ ⟨_, h⟩ => nomatch h

theorem goesOn_vetoOf :
    GoesOn opts j (vetoOf opts i agent task) fun _ => True := by
  unfold vetoOf
  refine (goesOn_perform (o := .getVeto i) (T := fun _ => True) nofun
    fun _ _ _ => trivial).bind fun veto _ => ?_
  cases veto with
  | some veto => exact goesOn_notify.bind fun _ _ => tries_pure fun _ _ _ => trivial
  | none =>
    refine goesOn_notify.bind fun verdict _ => ?_
    cases verdict with
    | none => exact tries_pure fun _ _ _ => trivial
    | some veto =>
      refine (goesOn_perform (o := .claimVeto i veto) (T := fun _ => True) nofun
        fun _ _ _ => trivial).bind fun _ _ => ?_
      exact tries_pure fun _ _ _ => trivial

/-- The step of an agent that there is. -/
theorem goesOn_networkStep (hagent : (opts.agents.lookup agent).isSome) :
    GoesOn opts j (networkStep opts i agent task) fun _ => True := by
  have hfreeze (res : TaskResult) : GoesOn opts j
      (do
        let res ← freezeStep i res
        let _ ← notify opts (.agentFinish i agent (some res.text))
        return (.inl res : TaskResult ⊕ NetInterrupts)) fun _ => True :=
    goesOn_freezeStep.bind fun _ _ => goesOn_notify.bind fun _ _ => tries_pure fun _ _ _ => trivial
  unfold networkStep
  refine (goesOn_perform (o := .getStep i) (T := fun _ => True) nofun
    fun _ _ _ => trivial).bind fun found _ => ?_
  cases found with
  | some res =>
    refine goesOn_notify.bind fun _ _ => goesOn_notify.bind fun _ _ => ?_
    exact tries_pure fun _ _ _ => trivial
  | none =>
    refine goesOn_vetoOf.bind fun veto _ => ?_
    cases veto with
    | some replaceResult => exact hfreeze _
    | none =>
      dsimp only
      split
      · next hnone =>
        rw [Option.isNone_iff_eq_none.1 hnone] at hagent
        contradiction
      refine goesOn_runAgent.bind fun out _ => ?_
      obtain ⟨text, interrupts⟩ := out
      dsimp only
      split
      · exact tries_pure fun _ _ _ => trivial
      · exact hfreeze _

theorem goesOn_forceFinal {maxIterations : ℕ} {steps : List NetworkStep} :
    GoesOn opts j (forceFinal opts maxIterations steps) fun _ => True := by
  have hforced : GoesOn opts j (forcedAnswer opts maxIterations steps) fun _ => True := by
    unfold forcedAnswer
    refine goesOn_getRoute.bind fun _ _ => goesOn_notify.bind fun _ _ => ?_
    refine goesOn_frozenDecision.bind fun forced _ => goesOn_notify.bind fun _ _ => ?_
    cases forced <;> exact tries_pure fun _ _ _ => trivial
  unfold forceFinal
  refine GoesOn.bind (T := fun _ => True) ?_ fun _ _ => goesOn_notify.bind fun _ _ => ?_
  · exact Tries.tryCatch hforced fun _ => tries_pure fun _ _ _ => trivial
  · exact tries_pure fun _ _ _ => trivial

/-- The turns that are left. -/
theorem goesOn_networkLoop {left : ℕ} {steps : List NetworkStep} :
    GoesOn opts j (networkLoop opts left i steps) fun _ => True := by
  induction left generalizing i steps with
  | zero => exact goesOn_forceFinal
  | succ left ih =>
    unfold networkLoop
    refine goesOn_getRoute.bind fun _ _ => goesOn_notify.bind fun _ _ => ?_
    refine goesOn_frozenDecision.bind fun decision hrun => goesOn_notify.bind fun _ _ => ?_
    cases decision with
    | final answer => exact goesOn_notify.bind fun _ _ => tries_pure fun _ _ _ => trivial
    | route agent task =>
      have hagent : (opts.agents.lookup agent).isSome := hrun
      have hreg : isRegistered opts agent = true := by simp [isRegistered, hagent]
      dsimp only
      rw [if_neg (by simp [hreg])]
      refine (goesOn_networkStep hagent).bind fun out _ => ?_
      cases out with
      | inr interrupts => exact tries_pure fun _ _ _ => trivial
      | inl res => exact ih

theorem goesOn_runNetwork : GoesOn opts j (runNetwork opts) fun _ => True := by
  unfold runNetwork
  split
  · exact tries_throw fun _ _ _ => .noAgents
  · exact goesOn_networkLoop

end Runs

/-- What a router writes: the first JSON object is the shortest balanced one, a decision of it can
    be run unless it names a method, and in a run whose router names none every frozen decision can
    be run, by every call. -/
theorem router_cannot_poison (opts : RunNetworkOptions) :
    (∀ text s, firstJsonObject text = some s ↔ IsFirstObject text s) ∧
    (∀ text force, (∀ d, parseDecision opts text force = .ok d → Runnable opts d) ↔
      force = true ∨ ¬NamesMethod opts text) ∧
    ∀ ms, netMachine.Meets (fun _ _ o r => NamesAgents opts o r) (netStart opts) ms →
      AllRunnable opts (netMachine.play (netStart opts) ms).world ∧
      ∀ j e, (netMachine.play (netStart opts) ms).procs j = .pure (.error e) → NotFrozen e := by
  refine ⟨fun _ _ => firstJsonObject_iff, fun _ _ => parseDecision_runnable_iff, fun ms hms => ?_⟩
  have hsat (j : ℕ) := @goesOn_runNetwork opts j
  have hempty : AllRunnable opts (netStart opts).world := fun _ _ h => nomatch h
  have hst (j : ℕ) : (runnableRG opts).Stable j fun _ => True := fun _ _ _ _ _ _ => trivial
  refine ⟨Machine.play_sat (S := runnableRG opts) (fun _ e => e.elim) hempty hst
    (fun _ => trivial) hsat hms, fun j e he => ?_⟩
  exact Machine.play_returned (S := runnableRG opts) (fun _ e => e.elim) hempty hst
    (fun _ => trivial) hsat hms he

instance (opts : RunNetworkOptions) (o : NetOp) (r : o.Res) : Decidable (NamesAgents opts o r) :=
  match o, r with
  | .generateText i _ _, .ok text => inferInstanceAs (Decidable (i = none ∨ ¬NamesMethod opts text))
  | .generateText .., .error (.router message) => .isTrue ⟨message, rfl⟩
  | .generateText .., .error .noAgents | .generateText .., .error (.noDecision _)
  | .generateText .., .error (.agentNotRegistered _) | .generateText .., .error (.claimLost _)
  | .generateText .., .error (.agent _) | .generateText .., .error .typeError => .isFalse nofun
  | .run .., .error (.agent message) => .isTrue ⟨message, rfl⟩
  | .run .., .error .noAgents | .run .., .error (.router _) | .run .., .error (.noDecision _)
  | .run .., .error (.agentNotRegistered _) | .run .., .error (.claimLost _)
  | .run .., .error .typeError => .isFalse nofun
  | .run .., .ok _ | .getRoute _, _ | .claimRoute .., _ | .getStep _, _ | .claimStep .., _
  | .getVeto _, _ | .claimVeto .., _ | .notify _, _ => .isTrue trivial

/-- The calls of the search, one after the other. -/
theorem search_not_poisoned :
    AllRunnable searchOptions (netMachine.play (netStart searchOptions) searchRun).world :=
  ((router_cannot_poison searchOptions).2.2 searchRun (by decide)).1

/-- The router names a method. -/
def poisonText : JsString :=
  js "\x7b\"action\":\"route\",\"agent\":\"constructor\",\"task\":\"look\"\x7d"

def poisonOptions : RunNetworkOptions where
  runId := js "r"
  agents := [(js "search", none)]
  task := js "find it"
  system := none
  maxIterations := some 1
  observer := false
  parseJson raw :=
    if raw = poisonText then
      some (.object [("action", .str (js "route")), ("agent", .str (js "constructor")),
        ("task", .str (js "look"))])
    else none

set_option maxRecDepth 4000 in
/-- The first call freezes the method's name, and every call that comes later fails, too. -/
theorem router_poisons :
    parseDecision poisonOptions poisonText false = .ok (.route (js "constructor") (js "look")) ∧
    poisonOptions.agents.lookup (js "constructor") = none ∧
    let run := List.replicate 10 (.run 0 (searchAnswer (.ok poisonText))) ++
      List.replicate 10 (.run 1 (searchAnswer (.ok poisonText)))
    (netMachine.play (netStart poisonOptions) run).procs 0 = .pure (.error .typeError) ∧
    (netMachine.play (netStart poisonOptions) run).procs 1 = .pure (.error .typeError) := by
  refine ⟨by decide +kernel, by decide, rfl, rfl⟩

end Gnldev.Durable
