import Gnldev.Rag.Chunk.Cut
import Mathlib.Data.List.Nodup
import Mathlib.Data.List.Pairwise

/-!
# What chunks keep of a text

Without what they have of the one before, the chunks of a text cover it, and none is longer than the
size and the overlap. This holds of windows; of the other two if and only if what is cut can be cut at
white space. A line of a markdown text that is neither blank nor a heading is in one section.

Documents with different ids have chunks with different ids, unless one that is not cut has the id of
a chunk of another one.
-/

open List

namespace Gnldev.Rag

open Durable (decimal decimal_inj isDigit_of_mem_decimal)
open Scheduler (isSpace)

variable {text : JsString} {o : ResolvedOpts} {overlap : ℕ}

/-! ## Without the overlap -/

/-- The chunks without the end of the one before, which may be shorter than the overlap. -/
def ownFrom (overlap : ℕ) (prev : JsString) : List JsString → List JsString
  | [] => []
  | c :: chunks =>
    let own := c.drop (min overlap prev.length)
    own :: ownFrom overlap own chunks

/-- The windows without the end of the one before. -/
def ownWindows (overlap : ℕ) : List JsString → List JsString
  | [] => []
  | c :: chunks => c :: chunks.map (·.drop overlap)

def ownTexts (o : ResolvedOpts) (chunks : List JsString) : List JsString :=
  match o.strategy with
  | .character => ownWindows o.overlap chunks
  | _ => ownFrom o.overlap [] chunks

theorem length_rtake (prev : JsString) : (prev.rtake overlap).length = min overlap prev.length := by
  rw [rtake_eq_reverse_take_reverse, length_reverse, length_take,
    length_reverse]

theorem ownFrom_zipWith (prev : JsString) (chunks : List JsString) :
    ownFrom overlap prev
      (List.zipWith (fun prev c => prev.rtake overlap ++ c) (prev :: chunks) chunks) = chunks := by
  induction chunks generalizing prev with
  | nil => rfl
  | cons c chunks ih =>
    have hown : (prev.rtake overlap ++ c).drop (min overlap prev.length) = c := by
      rw [← length_rtake, drop_left]
    rw [zipWith_cons_cons, ownFrom, hown, ih]

theorem ownFrom_zero (prev : JsString) (chunks : List JsString) : ownFrom 0 prev chunks = chunks := by
  induction chunks generalizing prev with
  | nil => rfl
  | cons c chunks ih => simp [ownFrom, ih]

theorem ownFrom_applyOverlap (chunks : List JsString) :
    ownFrom overlap [] (applyOverlap chunks overlap) = chunks := by
  rcases chunks with _ | ⟨c, chunks⟩
  · simp [applyOverlap, ownFrom]
  rw [applyOverlap]
  split
  · next h =>
    rcases h with rfl | h
    · exact ownFrom_zero [] _
    · obtain rfl : chunks = [] := length_eq_zero_iff.1 (by simpa using h)
      simp [ownFrom]
  · simp [ownFrom, ownFrom_zipWith]

theorem length_le_of_mem_zipWith {n : ℕ} {prev : JsString} {chunks : List JsString}
    (h : ∀ c ∈ chunks, c.length ≤ n) :
    ∀ c ∈ List.zipWith (fun prev c => prev.rtake overlap ++ c) (prev :: chunks) chunks,
      c.length ≤ n + overlap := by
  induction chunks generalizing prev with
  | nil => nofun
  | cons c chunks ih =>
    rw [forall_mem_cons] at h
    rw [zipWith_cons_cons, forall_mem_cons]
    refine ⟨?_, ih h.2⟩
    rw [length_append, length_rtake]
    omega

theorem length_le_of_mem_applyOverlap {n : ℕ} {chunks : List JsString}
    (h : ∀ c ∈ chunks, c.length ≤ n) : ∀ c ∈ applyOverlap chunks overlap, c.length ≤ n + overlap := by
  have hlater (c) (hc : c ∈ chunks) : c.length ≤ n + overlap := Nat.le_add_right_of_le (h c hc)
  rw [applyOverlap]
  split
  · exact hlater
  rcases chunks with _ | ⟨c, chunks⟩
  · nofun
  · rw [forall_mem_append]
    exact ⟨fun d hd => hlater d (mem_of_mem_take hd),
      length_le_of_mem_zipWith (forall_mem_cons.1 h).2⟩

/-! ## Sizes -/

theorem length_le_of_mem_hardCut (size : ℕ+) (text : JsString) :
    ∀ c ∈ hardCut size text, c.length ≤ size := by
  induction text using hardCut.induct size with
  | case1 =>
    rw [hardCut]
    exact forall_mem_nil _
  | case2 text hne ih =>
    rw [hardCut, dif_neg hne]
    exact forall_mem_cons.2 ⟨length_take_le _ _, ih⟩

theorem length_le_of_mem_short {size : ℕ} (h : text.length ≤ size) :
    ∀ c ∈ (if trim text = [] then [] else [text]), c.length ≤ size := by
  split
  · nofun
  · exact forall_mem_singleton.2 h

theorem length_le_of_mem_splitRecursive (size : ℕ+) (seps : List JsString) (text : JsString) :
    ∀ c ∈ splitRecursive size seps text, c.length ≤ size := by
  induction seps generalizing text with
  | nil =>
    rw [splitRecursive]
    split
    · next hle => exact length_le_of_mem_short hle
    · exact length_le_of_mem_hardCut size text
  | cons sep seps ih =>
    rw [splitRecursive]
    split
    · next hle => exact length_le_of_mem_short hle
    dsimp only
    split
    · exact ih text
    intro c hc
    obtain ⟨m, -, hm⟩ := mem_flatMap.1 hc
    split at hm
    · next hle =>
      rw [mem_singleton.1 hm]
      exact hle
    · exact ih m c hm

/-! ## Windows -/

theorem flatten_windows (o : ResolvedOpts) (text : JsString) (h : o.overlap ≤ text.length) :
    ((windows o text).map (·.drop o.overlap)).flatten = text.drop o.overlap := by
  induction text using windows.induct o with
  | case1 =>
    rw [windows]
    simp
  | case2 text hne ih =>
    have hlt := o.overlap_lt
    rw [windows, dif_neg hne]
    split
    · next hle =>
      rw [take_of_length_le hle]
      simp
    · next hlong =>
      have hrest : o.overlap ≤ (text.drop (o.size - o.overlap)).length := by
        rw [length_drop]
        omega
      have hplace : o.size - o.overlap + o.overlap = (o.size : ℕ) := by omega
      rw [map_cons, flatten_cons, ih hrest, drop_drop, hplace, drop_take]
      have htext : text.drop o.size = (text.drop o.overlap).drop (o.size - o.overlap) := by
        rw [drop_drop, Nat.add_comm, hplace]
      rw [htext, take_append_drop]

theorem length_le_of_mem_windows (o : ResolvedOpts) (text : JsString) :
    ∀ c ∈ windows o text, c.length ≤ o.size := by
  induction text using windows.induct o with
  | case1 =>
    rw [windows]
    nofun
  | case2 text hne ih =>
    rw [windows, dif_neg hne, forall_mem_cons]
    refine ⟨length_take_le _ _, ?_⟩
    split
    · nofun
    · exact ih

theorem flatten_ownWindows (o : ResolvedOpts) (text : JsString) :
    (ownWindows o.overlap (windows o text)).flatten = text := by
  have hlt := o.overlap_lt
  rw [windows]
  split
  · next h => exact h.symm
  · split
    · next hle => simp [ownWindows, take_of_length_le hle]
    · next hlong =>
      have hrest : o.overlap ≤ (text.drop (o.size - o.overlap)).length := by
        rw [length_drop]
        omega
      have hplace : o.size - o.overlap + o.overlap = (o.size : ℕ) := by omega
      rw [ownWindows, flatten_cons, flatten_windows o _ hrest, drop_drop, hplace,
        take_append_drop]

/-! ## Sections -/

/-- The lines of a text that are not blank. -/
def linesOf (text : JsString) : List JsString := nonblank (text.splitOn NEWLINE)

/-- The lines that are in a section, or will be. -/
def SectionState.kept (s : SectionState) : List JsString :=
  s.sections.flatMap (linesOf ·.body) ++ nonblank s.buf

theorem blank_of_intercalate {buf : List JsString} (h : Blank isSpace ([NEWLINE].intercalate buf)) :
    ∀ line ∈ buf, Blank isSpace line := by
  induction buf with
  | nil => nofun
  | cons line buf ih =>
    rcases buf with _ | ⟨next, buf⟩
    · rw [intercalate_singleton] at h
      exact forall_mem_singleton.2 h
    · rw [intercalate_cons_cons, blank_append, blank_append] at h
      exact forall_mem_cons.2 ⟨h.1.1, ih h.2⟩

theorem nonblank_eq_nil {buf : List JsString} (h : trim ([NEWLINE].intercalate buf) = []) :
    nonblank buf = [] := by
  rw [nonblank, filter_eq_nil_iff]
  intro line hline
  have hblank := blank_of_intercalate (trim_eq_nil.1 h) line hline
  simp [trim_eq_nil.2 hblank]

theorem SectionState.flush_buf (s : SectionState) : s.flush.buf = [] := by
  rw [flush]
  dsimp only
  split <;> rfl

variable {s : SectionState}

theorem SectionState.kept_flush (h : ∀ line ∈ s.buf, NEWLINE ∉ line) :
    s.flush.kept = s.kept := by
  rw [flush]
  dsimp only
  split
  · next hblank =>
    rw [kept, kept, nonblank_eq_nil hblank]
    rfl
  · next hbody =>
    have hbuf : s.buf ≠ [] := fun hnil => hbody (by rw [hnil]; rfl)
    have hlines := splitOn_intercalate NEWLINE h hbuf
    simp [kept, linesOf, hlines, nonblank]

/-- A line is kept, unless it is blank or a heading. -/
theorem SectionState.kept_line (h : ∀ line ∈ s.buf, NEWLINE ∉ line) (line : JsString) :
    (s.line line).kept = s.kept ++ (nonblank [line]).filter (heading? · = none) := by
  rw [SectionState.line]
  split
  · next level title hheading =>
    have hflush : (s.flush.sections.flatMap (linesOf ·.body) ++ nonblank s.flush.buf) = s.kept :=
      kept_flush h
    have hnone : (nonblank [line]).filter (heading? · = none) = [] := by
      rw [filter_filter, filter_eq_nil_iff]
      simp [hheading]
    rw [hnone, append_nil]
    exact hflush
  · next hheading =>
    have hall : (nonblank [line]).filter (heading? · = none) = nonblank [line] := by
      rw [filter_eq_self]
      intro l hl
      rw [mem_singleton.1 (mem_of_mem_filter hl), hheading]
      rfl
    rw [hall, kept, kept, nonblank, filter_append, append_assoc]

theorem SectionState.plain_line (h : ∀ line ∈ s.buf, NEWLINE ∉ line) {line : JsString}
    (hline : NEWLINE ∉ line) : ∀ l ∈ (s.line line).buf, NEWLINE ∉ l := by
  rw [SectionState.line]
  split
  · rw [flush_buf]
    nofun
  · rw [forall_mem_append]
    exact ⟨h, forall_mem_singleton.2 hline⟩

theorem SectionState.kept_lines {lines : List JsString} (hlines : ∀ line ∈ lines, NEWLINE ∉ line)
    (h : ∀ line ∈ s.buf, NEWLINE ∉ line) :
    (lines.foldl SectionState.line s).flush.sections.flatMap (linesOf ·.body) =
      s.kept ++ (nonblank lines).filter (heading? · = none) := by
  induction lines generalizing s with
  | nil =>
    rw [foldl_nil, ← s.kept_flush h, kept, flush_buf]
    simp [nonblank]
  | cons line lines ih =>
    rw [forall_mem_cons] at hlines
    rw [foldl_cons, ih hlines.2 (plain_line h hlines.1), kept_line h, append_assoc,
      ← filter_append, nonblank, nonblank, nonblank, ← filter_append]
    rfl

theorem not_mem_of_mem_splitOn (text : JsString) : ∀ line ∈ text.splitOn NEWLINE, NEWLINE ∉ line := by
  induction text with
  | nil => simp
  | cons u text ih =>
    rw [splitOn_cons_eq_if_modifyHead]
    split
    · exact forall_mem_cons.2 ⟨nofun, ih⟩
    · next hu =>
      obtain ⟨line, lines, heq⟩ := exists_cons_of_ne_nil (splitOn_ne_nil NEWLINE text)
      rw [heq, forall_mem_cons] at ih
      rw [heq, modifyHead_cons, forall_mem_cons]
      refine ⟨fun hmem => ?_, ih.2⟩
      rcases mem_cons.1 hmem with rfl | hmem
      · simp at hu
      · exact ih.1 hmem

/-- Every line that is neither blank nor a heading is in one section. -/
theorem lines_splitMarkdownSections (text : JsString) :
    (splitMarkdownSections text).flatMap (linesOf ·.body) =
      (linesOf text).filter (heading? · = none) := by
  rw [splitMarkdownSections, SectionState.kept_lines (not_mem_of_mem_splitOn text)
    fun _ h => absurd h not_mem_nil]
  rfl

theorem covers_trim_iff {body : JsString} {size : ℕ+} {seps : List JsString}
    (hseps : ∀ sep ∈ seps, sep ≠ []) :
    Covers isSpace body (splitRecursive size seps (trim body)) ↔ Cuttable size seps (trim body) := by
  obtain ⟨g, g', hg, hg', hbody⟩ := exists_eq_trim body
  constructor
  · intro h
    have hplaces : inked isSpace body 0 = inked isSpace (trim body) (0 + g.length) := by
      refine (congrArg (inked isSpace · 0) hbody).trans ?_
      rw [append_assoc, inked_append, inked_of_blank hg, inked_append, inked_of_blank hg',
        nil_append, append_nil]
    exact cuttable_of_shifted hseps (hplaces ▸ h.shifted 0)
  · intro h
    have hcovers := ((covers_of_cuttable hseps h).prepend hg).append_blank hg'
    rwa [← hbody] at hcovers

/-! ## Texts -/

/-- The chunks of a text are short, and without the overlap they cover it. -/
structure KeepsText (o : ResolvedOpts) (text : JsString) (chunks : List Chunk) : Prop where
  short : ∀ c ∈ chunks, c.text.length ≤ o.size + o.overlap
  covers : Covers isSpace text (ownTexts o (chunks.map (·.text)))

/-- What chunks keep of a text; with markdown, section by section, and the sections keep the lines. -/
def Keeps (o : ResolvedOpts) (text : JsString) (chunks : List Chunk) : Prop :=
  match o.strategy with
  | .markdown =>
    chunks = (splitMarkdownSections text).flatMap (sectionChunks o) ∧
      (∀ s ∈ splitMarkdownSections text, KeepsText o s.body (sectionChunks o s)) ∧
      (splitMarkdownSections text).flatMap (linesOf ·.body) =
        (linesOf text).filter (heading? · = none)
  | _ => KeepsText o text chunks

/-- What is cut can be cut at white space. -/
def Fits (o : ResolvedOpts) (text : JsString) : Prop :=
  match o.strategy with
  | .character => True
  | .markdown => ∀ s ∈ splitMarkdownSections text, Cuttable o.size SEPARATORS (trim s.body)
  | .recursive => Cuttable o.size SEPARATORS text

theorem SEPARATORS_ne_nil : ∀ sep ∈ SEPARATORS, sep ≠ [] := by decide

theorem keepsText_windows (ho : o.strategy = .character) :
    KeepsText o text ((windows o text).map (⟨·, none⟩)) where
  short := by
    simp only [forall_mem_map]
    exact fun c hc => Nat.le_add_right_of_le (length_le_of_mem_windows o text c hc)
  covers := by
    have hflatten := flatten_ownWindows o text
    rw [map_map, ownTexts, ho]
    have hcovers := covers_flatten isSpace (ownWindows o.overlap (windows o text))
    simpa [Function.comp_def, hflatten] using hcovers

/-- Chunks that were cut, and begin with the end of the one before. -/
theorem keepsText_iff (ho : o.strategy ≠ .character) {body cut : JsString}
    {heading : Option JsString} :
    KeepsText o body ((applyOverlap (splitRecursive o.size SEPARATORS cut) o.overlap).map
        (⟨·, heading⟩)) ↔
      Covers isSpace body (splitRecursive o.size SEPARATORS cut) := by
  have hown : ownTexts o (((applyOverlap (splitRecursive o.size SEPARATORS cut) o.overlap).map
      (Chunk.mk · heading)).map (·.text)) = splitRecursive o.size SEPARATORS cut := by
    rw [map_map, ownTexts]
    split
    · contradiction
    · simp [Function.comp_def, ownFrom_applyOverlap]
  refine ⟨fun h => hown ▸ h.covers, fun h => ⟨?_, by rwa [hown]⟩⟩
  simp only [forall_mem_map]
  exact length_le_of_mem_applyOverlap (length_le_of_mem_splitRecursive o.size SEPARATORS cut)

theorem cuttable_of_blank {seps : List JsString} {size : ℕ} (hseps : ∀ sep ∈ seps, sep ≠ [])
    (h : Blank isSpace text) : Cuttable size seps text := by
  induction seps with
  | nil => trivial
  | cons sep seps ih =>
    rw [forall_mem_cons] at hseps
    obtain ⟨p, parts, hparts, htext⟩ := splitOn_eq hseps.1 text
    have hnone : piecesOf sep text = [] := by
      rw [htext, blank_append, rejoined] at h
      rw [piecesOf, hparts, filter_eq_nil_iff, forall_mem_cons]
      refine ⟨by simp [trim_eq_nil.2 h.1], fun q hq => ?_⟩
      have hblank : Blank isSpace q := fun u hu =>
        h.2 u (mem_flatMap.2 ⟨q, hq, mem_append_right _ hu⟩)
      simp [trim_eq_nil.2 hblank]
    rw [Cuttable, hnone]
    exact .inr (ih hseps.2)

theorem blank_intercalate {lines : List JsString} (h : ∀ line ∈ lines, Blank isSpace line) :
    Blank isSpace ([NEWLINE].intercalate lines) := by
  induction lines with
  | nil => exact .nil
  | cons line lines ih =>
    rw [forall_mem_cons] at h
    rcases lines with _ | ⟨next, lines⟩
    · rw [intercalate_singleton]
      exact h.1
    · have hbreak : Blank isSpace [NEWLINE] := forall_mem_singleton.2 (by decide)
      rw [intercalate_cons_cons]
      exact (h.1.append hbreak).append (ih h.2)

theorem linesOf_eq_nil_iff : linesOf text = [] ↔ Blank isSpace text := by
  constructor
  · intro h
    rw [linesOf, nonblank, filter_eq_nil_iff] at h
    have hblank := blank_intercalate fun line hline => trim_eq_nil.1 (by simpa using h line hline)
    rwa [intercalate_splitOn] at hblank
  · intro h
    refine nonblank_eq_nil (trim_eq_nil.2 ?_)
    rwa [intercalate_splitOn]

theorem trim_body_of_blank (h : Blank isSpace text) :
    ∀ s ∈ splitMarkdownSections text, trim s.body = [] := by
  have hlines := lines_splitMarkdownSections text
  rw [linesOf_eq_nil_iff.2 h, filter_nil, flatMap_eq_nil_iff] at hlines
  exact fun s hs => trim_eq_nil.2 (linesOf_eq_nil_iff.1 (hlines s hs))

theorem sectionChunks_eq_nil {s : Section} (h : trim s.body = []) : sectionChunks o s = [] := by
  have hshort : ([] : JsString).length ≤ o.size := Nat.zero_le _
  have hempty : trim [] = [] := rfl
  have hnone : splitRecursive o.size SEPARATORS [] = [] := by
    rw [SEPARATORS, splitRecursive, if_pos hshort, if_pos hempty]
  rw [sectionChunks, h, hnone, applyOverlap, if_pos (.inr (Nat.zero_le _))]
  rfl

theorem keeps_of_blank (h : Blank isSpace text) : Keeps o text [] := by
  have hkeeps {body : JsString} (hbody : Blank isSpace body) : KeepsText o body [] := by
    refine ⟨nofun, ?_⟩
    rw [ownTexts]
    split <;> exact .nil hbody
  rw [Keeps]
  split
  · refine ⟨?_, fun s hs => ?_, lines_splitMarkdownSections text⟩
    · rw [eq_comm, flatMap_eq_nil_iff]
      exact fun s hs => sectionChunks_eq_nil (trim_body_of_blank h s hs)
    · rw [sectionChunks_eq_nil (trim_body_of_blank h s hs)]
      exact hkeeps (trim_eq_nil.1 (trim_body_of_blank h s hs))
  · exact hkeeps h

theorem fits_of_blank (h : Blank isSpace text) : Fits o text := by
  rw [Fits]
  split
  · trivial
  · intro s hs
    rw [trim_body_of_blank h s hs]
    exact .inl (Nat.zero_le _)
  · exact cuttable_of_blank SEPARATORS_ne_nil h

theorem keeps_chunksOf_iff (o : ResolvedOpts) (text : JsString) :
    Keeps o text (chunksOf o text) ↔ Fits o text := by
  rw [chunksOf]
  split
  · next hblank =>
    have hblank := trim_eq_nil.1 hblank
    exact iff_of_true (keeps_of_blank hblank) (fits_of_blank hblank)
  rw [Keeps, Fits]
  rcases ho : o.strategy with _ | _ | _
  · exact (keepsText_iff (by simp [ho])).trans (covers_splitRecursive_iff SEPARATORS_ne_nil)
  · have hsection (s : Section) :
        KeepsText o s.body (sectionChunks o s) ↔ Cuttable o.size SEPARATORS (trim s.body) :=
      (keepsText_iff (by simp [ho])).trans (covers_trim_iff SEPARATORS_ne_nil)
    simp only [hsection, true_and, lines_splitMarkdownSections, and_true]
  · exact iff_of_true (keepsText_windows ho) trivial

/-! ## Documents -/

/-- The ids of the documents that stand for one. -/
def idsOf (o : ResolvedOpts) (doc : VectorDoc) : List JsString :=
  (doc.chunked (chunksOf o doc.text)).map (·.id)

/-- No document that is not cut has the id of a chunk of another one. -/
def IdsApart (o : ResolvedOpts) (docs : List VectorDoc) : Prop :=
  ∀ d ∈ docs, ∀ e ∈ docs, 1 < (chunksOf o d.text).length → (chunksOf o e.text).length ≤ 1 →
    ∀ i < (chunksOf o d.text).length, e.id ≠ d.id ++ js "#" ++ decimal i

theorem chunkDocuments_eq {opts : ChunkOptions} (h : resolveOpts opts = .ok o)
    (docs : List VectorDoc) :
    chunkDocuments docs opts = .ok (docs.flatMap fun doc => doc.chunked (chunksOf o doc.text)) := by
  have hone (doc : VectorDoc) : (chunkText doc.text opts).map doc.chunked =
      pure (doc.chunked (chunksOf o doc.text)) := by
    rw [chunkText, h]
    rfl
  simp only [chunkDocuments, hone, mapM_pure]
  rfl

theorem idsOf_of_whole {doc : VectorDoc} (h : (chunksOf o doc.text).length ≤ 1) :
    idsOf o doc = [doc.id] := by
  rw [idsOf, VectorDoc.chunked, if_pos h]
  rfl

theorem idsOf_of_cut {doc : VectorDoc} (h : 1 < (chunksOf o doc.text).length) :
    idsOf o doc = (List.range (chunksOf o doc.text).length).map
      fun i => doc.id ++ js "#" ++ decimal i := by
  rw [idsOf, VectorDoc.chunked, if_neg (not_le.2 h)]
  refine ext_getElem (by simp) fun i _ _ => ?_
  simp [VectorDoc.ofChunk]

theorem hash_not_mem_decimal (i : ℕ) : 35 ∉ decimal i := fun h =>
  absurd (isDigit_of_mem_decimal h) (by decide)

/-- The id of a chunk says which document it is of, and its place. -/
theorem chunkId_inj {a b : JsString} {i j : ℕ}
    (h : a ++ js "#" ++ decimal i = b ++ js "#" ++ decimal j) : a = b ∧ i = j := by
  have hhash : js "#" = [35] := by decide
  simp only [hhash, append_assoc, singleton_append] at h
  obtain ⟨hab, hij⟩ :=
    JsString.append_cons_inj_last (hash_not_mem_decimal i) (hash_not_mem_decimal j) h
  exact ⟨hab, decimal_inj hij⟩

theorem nodup_idsOf (o : ResolvedOpts) (doc : VectorDoc) : (idsOf o doc).Nodup := by
  rcases le_or_gt (chunksOf o doc.text).length 1 with h | h
  · rw [idsOf_of_whole h]
    exact nodup_singleton _
  · rw [idsOf_of_cut h]
    exact nodup_range.map fun i j hij => (chunkId_inj hij).2

theorem disjoint_idsOf {docs : List VectorDoc} (h : IdsApart o docs) {d e : VectorDoc} (hd : d ∈ docs)
    (he : e ∈ docs) (hne : d.id ≠ e.id) : List.Disjoint (idsOf o d) (idsOf o e) := by
  intro id hid hid'
  rcases le_or_gt (chunksOf o d.text).length 1 with hcut | hcut <;>
    rcases le_or_gt (chunksOf o e.text).length 1 with hcut' | hcut'
  · rw [idsOf_of_whole hcut, mem_singleton] at hid
    rw [idsOf_of_whole hcut', mem_singleton] at hid'
    exact hne (hid.symm.trans hid')
  · rw [idsOf_of_whole hcut, mem_singleton] at hid
    rw [idsOf_of_cut hcut', mem_map] at hid'
    obtain ⟨i, hi, rfl⟩ := hid'
    exact h e he d hd hcut' hcut i (mem_range.1 hi) hid.symm
  · rw [idsOf_of_cut hcut, mem_map] at hid
    rw [idsOf_of_whole hcut', mem_singleton] at hid'
    obtain ⟨i, hi, rfl⟩ := hid
    exact h d hd e he hcut hcut' i (mem_range.1 hi) hid'.symm
  · rw [idsOf_of_cut hcut, mem_map] at hid
    rw [idsOf_of_cut hcut', mem_map] at hid'
    obtain ⟨i, -, rfl⟩ := hid
    obtain ⟨j, -, hij⟩ := hid'
    exact hne (chunkId_inj hij).1.symm

theorem nodup_ids_iff {docs : List VectorDoc} (hids : (docs.map (·.id)).Nodup) :
    (docs.flatMap (idsOf o)).Nodup ↔ IdsApart o docs := by
  have hne := pairwise_map.1 hids
  rw [nodup_flatMap]
  constructor
  · rintro ⟨-, hapart⟩ d hd e he hcut hwhole i hi heq
    have hde : d ≠ e := by
      rintro rfl
      omega
    have hsymm : Std.Symm (Function.onFun List.Disjoint (idsOf o)) :=
      ⟨fun _ _ h id hid hid' => h hid' hid⟩
    have hdisjoint : List.Disjoint (idsOf o d) (idsOf o e) := hapart.forall hd he hde
    refine hdisjoint (a := e.id) ?_ ?_
    · rw [idsOf_of_cut hcut, heq]
      exact mem_map.2 ⟨i, mem_range.2 hi, rfl⟩
    · rw [idsOf_of_whole hwhole]
      exact mem_singleton_self _
  · intro h
    refine ⟨fun d _ => nodup_idsOf o d, ?_⟩
    exact hne.imp_of_mem fun hd he hde => disjoint_idsOf h hd he hde

/-- The chunks of a text are no longer than the size and the overlap, and, without the overlap, pieces
    of it that leave out blank characters only, if and only if what is cut can be cut at white
    space. And documents with different ids have chunks with different ids if and only if none that is
    not cut has the id of a chunk of another one. -/
theorem chunks_keep {opts : ChunkOptions} (h : resolveOpts opts = .ok o) (text : JsString)
    {docs : List VectorDoc} (hids : (docs.map (·.id)).Nodup) :
    (∃ chunks, chunkText text opts = .ok chunks ∧ (Keeps o text chunks ↔ Fits o text)) ∧
      ∃ out, chunkDocuments docs opts = .ok out ∧ ((out.map (·.id)).Nodup ↔ IdsApart o docs) := by
  refine ⟨⟨chunksOf o text, ?_, keeps_chunksOf_iff o text⟩, _, chunkDocuments_eq h docs, ?_⟩
  · rw [chunkText, h]
    rfl
  · rw [map_flatMap]
    exact nodup_ids_iff hids

/-- Chunks of at most so many characters, without an overlap. -/
def upTo (size : ℕ+) : ResolvedOpts := ⟨size, 0, .recursive, size.pos⟩

/-- Two paragraphs that are cut apart, and a document that is not cut and has another id. -/
def twoParagraphs : VectorDoc := ⟨js "d", js "aaaa\n\nbbbb", none, none, none, none⟩

theorem paragraphs_kept :
    (∃ chunks, chunkText twoParagraphs.text ⟨some 6, some 0, none⟩ = .ok chunks ∧
      Keeps (upTo 6) twoParagraphs.text chunks) ∧
    ∃ out, chunkDocuments [twoParagraphs, { twoParagraphs with id := js "e", text := js "c" }]
      ⟨some 6, some 0, none⟩ = .ok out ∧ (out.map (·.id)).Nodup := by
  have hopts : resolveOpts ⟨some 6, some 0, none⟩ = .ok (upTo 6) := rfl
  have hids : ([twoParagraphs, { twoParagraphs with id := js "e", text := js "c" }].map
      (·.id)).Nodup := by decide
  obtain ⟨⟨chunks, hchunks, hkeeps⟩, out, hout, hnodup⟩ := chunks_keep hopts twoParagraphs.text hids
  have hfits : Cuttable 6 SEPARATORS twoParagraphs.text := by decide
  have hapart : IdsApart (upTo 6)
      [twoParagraphs, { twoParagraphs with id := js "e", text := js "c" }] := by
    rw [IdsApart]
    decide
  exact ⟨⟨chunks, hchunks, hkeeps.2 hfits⟩, out, hout, hnodup.2 hapart⟩

/-- A full stop at a cut is in no chunk; and a document that is not cut may have the id of a chunk. -/
theorem sentence_lost :
    (∃ chunks, chunkText (js "aaaa. bbbb") ⟨some 6, some 0, none⟩ = .ok chunks ∧
      ¬Keeps (upTo 6) (js "aaaa. bbbb") chunks) ∧
    ∃ out, chunkDocuments [twoParagraphs, { twoParagraphs with id := js "d#0", text := js "c" }]
      ⟨some 6, some 0, none⟩ = .ok out ∧ ¬(out.map (·.id)).Nodup := by
  refine ⟨⟨[⟨js "aaaa", none⟩, ⟨js "bbbb", none⟩], rfl, fun h => ?_⟩, _, rfl, by decide⟩
  have hlength := (h.covers.shifted 0).length_eq
  rw [length_inked] at hlength
  exact absurd hlength (by decide)

end Gnldev.Rag
