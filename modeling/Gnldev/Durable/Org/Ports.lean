import Gnldev.Durable.Org.Private
import Gnldev.Durable.Org.Storage
import Mathlib.Algebra.Ring.Int.Defs

/-!
# Two ways to the runs

There are two ways to the runs of an organization: the view of the journal, and the port `runs` of
its storage. The port takes the prefix off the lists, but not off the records (`scopedRuns`).

* `views_agree_iff`: the two agree exactly as long as the organization has no records.
-/

open List

namespace Gnldev.Durable

variable {D S : Type} [DecidableEq D] [LinearOrder S] [Zero S]

/-- The port and the view of the journal tell the same of the runs of an organization, with the
    keys and ids that it has written. -/
structure ViewsAgree (s : Storage D S) (cosine : List S → List S → Option S) (o : OrgId) : Prop where
  own : ∀ runId es, s.read cosine o (.readRun runId) = .entries es →
    ∀ e ∈ es, e.runId = runId ∧ runId ++ e.kind.separator <+: e.key
  readRun : ∀ runId es, (viewPerform o.pre s.runs 0 (.readRun runId)).1 = .entries es →
    s.read cosine o (.readRun runId) = .entries es
  listRuns : ∀ q page items cursor rs, s.read cosine o (.listRuns q page) = .runs (items, cursor) →
    (viewPerform o.pre s.runs 0 .listRuns).1 = .runs (some rs) → ∀ r ∈ items, r ∈ rs

theorem mem_drawOwned {A : Type} {l : List A} {own : A → Option A} {fetch : Option ℕ → ListPage A}
    (hfetch : ∀ c, ∀ a ∈ (fetch c).1, a ∈ l) {limit : Option ℕ} {draws : ℕ} {cursor : Option ℕ}
    {items : List A} (hitems : ∀ a ∈ items, a ∈ l.filterMap own) :
    ∀ a ∈ (drawOwned fetch own limit draws cursor items).1, a ∈ l.filterMap own := by
  induction draws generalizing cursor items with
  | zero => exact hitems
  | succ draws ih =>
    have hnext : ∀ a ∈ items ++ (fetch cursor).1.filterMap own, a ∈ l.filterMap own := by
      intro a ha
      rcases mem_append.1 ha with ha | ha
      · exact hitems a ha
      · obtain ⟨b, hb, hown⟩ := mem_filterMap.1 ha
        exact mem_filterMap.2 ⟨b, hfetch cursor b hb, hown⟩
    rw [drawOwned]
    simp only
    split
    · exact hnext
    · exact ih hnext

/-- Nothing is listed that is not there. -/
theorem mem_drainOwned {A : Type} {l : List A} {own : A → Option A} {q : ListQuery} {a : A}
    (ha : a ∈ (drainOwned l own q).1) : a ∈ l.filterMap own := by
  have hfetch : ∀ c, ∀ a ∈ (ListQuery.paginate { q with cursor := c } l).1, a ∈ l := by
    intro c a ha
    exact mem_of_mem_drop (mem_of_mem_take ha)
  have hdraw : a ∈ (drawOwned (fun cursor => ListQuery.paginate { q with cursor } l) own q.limit MAX_DRAW
      q.cursor []).1 → a ∈ l.filterMap own :=
    mem_drawOwned hfetch (fun a ha => absurd ha not_mem_nil) a
  rw [drainOwned] at ha
  rcases hlimit : q.limit with _ | limit
  · simp only [hlimit] at ha hdraw
    exact hdraw ha
  · simp only [hlimit] at ha hdraw
    exact hdraw (mem_of_mem_take ha)

/-- The port keeps the prefix in a record. -/
theorem not_viewsAgree {s : Storage D S} {cosine : List S → List S → Option S} {o : OrgId}
    {key runId : JsString} {kind : EntryKind} (hkey : key ∈ s.runs.store.entries.map Prod.fst)
    (hparse : parseJournalKey key = some (o.pre ++ runId, kind)) : ¬ViewsAgree s cosine o := by
  intro h
  obtain ⟨⟨key, value⟩, he, rfl⟩ := mem_map.1 hkey
  have hrecord : (key, kind, value) ∈ s.runs.store.entries.filterMap
      (recordOf (o.pre ++ runId)) := by
    refine mem_filterMap.2 ⟨_, he, ?_⟩
    rw [recordOf, hparse]
    exact if_pos rfl
  have hread := StorageAnswer.entries.inj (h.readRun runId _ rfl)
  have hrunId : ∀ e ∈ s.runs.readRun (o.pre ++ runId), e.runId = o.pre ++ runId := by
    intro e he
    obtain ⟨i, hi, rfl⟩ := mem_mapIdx.1 he
    rfl
  -- There is an entry, with the prefix; and the view has taken it off.
  obtain ⟨e, he⟩ := exists_mem_of_ne_nil (s.runs.readRun (o.pre ++ runId)) (by
    rw [MemoryJournal.readRun, Ne, mapIdx_eq_nil_iff]
    exact ne_nil_of_mem hrecord)
  have hstripped := he
  rw [hread] at hstripped
  obtain ⟨e', he', rfl⟩ := mem_map.1 hstripped
  have hlen : (dropPrefix o.pre e'.runId).length = (o.pre ++ runId).length :=
    congrArg List.length (hrunId _ he)
  rw [hrunId e' he', dropPrefix_append, length_append] at hlen
  have hpre : o.pre.length ≠ 0 := by simp [OrgId.pre]
  omega

/-- The two agree exactly if the organization has no records. -/
theorem views_agree_iff (s : Storage D S) (cosine : List S → List S → Option S) (o : OrgId) :
    ViewsAgree s cosine o ↔
      ∀ key ∈ s.runs.store.entries.map Prod.fst, ∀ runId kind,
        parseJournalKey key ≠ some (o.pre ++ runId, kind) := by
  constructor
  · intro h key hkey runId kind hparse
    exact not_viewsAgree hkey hparse h
  · intro h
    have hread (runId : JsString) : s.runs.readRun (o.pre ++ runId) = [] := by
      rw [MemoryJournal.readRun, List.mapIdx_eq_nil_iff, List.filterMap_eq_nil_iff]
      intro e he
      rw [recordOf]
      split
      · next owner kind hparse =>
        refine if_neg ?_
        rintro rfl
        exact h _ (List.mem_map_of_mem he) runId kind hparse
      · rfl
    refine ⟨fun runId es hes => ?_, fun runId es hes => ?_,
      fun q page items cursor rs hport hview r hr => ?_⟩
    · rw [Storage.read, hread] at hes
      obtain rfl := StorageAnswer.entries.inj hes
      exact fun e he => absurd he List.not_mem_nil
    · obtain rfl := JournalAnswer.entries.inj hes
      rw [Storage.read, hread, List.map_nil]
    · obtain rfl := Option.some.inj (JournalAnswer.runs.inj hview)
      obtain hpage := StorageAnswer.runs.inj hport
      have hmem : r ∈ ((listRuns s.runs.store).filter q.keeps).filterMap (·.own o.pre) := by
        refine mem_drainOwned (q := page) ?_
        rw [hpage]
        exact hr
      obtain ⟨a, ha, hown⟩ := List.mem_filterMap.1 hmem
      exact List.mem_filterMap.2 ⟨a, List.mem_of_mem_filter ha, hown⟩

/-- A storage with one key in its journal. -/
def oneKey (key : JsString) : Storage Unit ℤ where
  runs := MemoryJournal.empty.put 0 key ⟨false, some (js "succeeded"), none, none, none, none, ()⟩
  threads := .empty
  messages := .empty
  wm := .empty
  obs := .empty
  vectors := []
  logs := .empty
  kv := .empty
  cache := .empty
  metas := .empty

/-- A tool call of a run: by the port, its key is not one of the run that was asked for, and a
    consumer that looks for `r:tool:` finds nothing. -/
theorem views_disagree :
    ¬ViewsAgree (oneKey (js "org:acme:r:tool:c")) (fun _ _ => some 0) acme ∧
      ((oneKey (js "org:acme:r:tool:c")).runs.readRun (acme.pre ++ js "r")).filter
        (·.key.startsWith (js "r:tool:")) = [] := by
  have hparse : parseJournalKey (js "org:acme:r:tool:c") = some (acme.pre ++ js "r", .tool) := by
    decide
  exact ⟨not_viewsAgree (by decide) hparse, by decide⟩

end Gnldev.Durable
