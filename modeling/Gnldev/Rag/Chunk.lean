import Gnldev.Durable.RunId
import Gnldev.Durable.RunKeys
import Gnldev.Lib.MergePatch
import Gnldev.Lib.Pieces
import Gnldev.Scheduler.Cron
import Mathlib.Data.List.DropRight
import Mathlib.Data.PNat.Notation

/-!
# Chunks

A text that is too long to be searched as a whole is cut into chunks (`rag/src/chunk.ts`): at the
coarsest separator first, and what is still too long at the next one; or section by section, as
markdown has them; or at fixed distances. Each chunk begins with the end of the one before it, and has
an id that is made of the one of its document.

A size is a number of characters. `{...}` of the source are lists of fields.
-/

namespace Gnldev.Rag

open Durable (isLineTerminator decimal)
open Scheduler (isSpace)

inductive Strategy where
  | recursive
  | markdown
  | character
  deriving DecidableEq

structure ChunkOptions where
  size : Option ℤ
  overlap : Option ℤ
  strategy : Option Strategy

structure Chunk where
  text : JsString
  heading : Option JsString
  deriving DecidableEq

def DEFAULT_SIZE : ℤ := 1200
def DEFAULT_OVERLAP : ℤ := 120

/-- Options that have been checked. -/
structure ResolvedOpts where
  size : ℕ+
  overlap : ℕ
  strategy : Strategy
  overlap_lt : overlap < size

def resolveOpts (opts : ChunkOptions) : Except JsString ResolvedOpts :=
  let size := opts.size.getD DEFAULT_SIZE
  let overlap := opts.overlap.getD (min DEFAULT_OVERLAP (size / 4))
  if hsize : size < 1 then .error (js "@gnldev/rag chunk: size must be >= 1")
  else if hoverlap : overlap < 0 ∨ size ≤ overlap then
    .error (js "@gnldev/rag chunk: 0 <= overlap < size must hold")
  else .ok
    { size := ⟨size.toNat, by omega⟩
      overlap := overlap.toNat
      strategy := opts.strategy.getD .recursive
      overlap_lt := by simp only [PNat.mk_coe]; omega }

/-! ## Cutting -/

/-- `s.trim()`. -/
def trim (s : JsString) : JsString := (s.dropWhile isSpace).rdropWhile isSpace

/-- The separators: paragraph, line, sentence, word. -/
def SEPARATORS : List JsString := [js "\n\n", js "\n", js ". ", js " "]

/-- The loop of `mergeGreedy`, from the piece that is being made. -/
def mergeFrom (sep : JsString) (size : ℕ) (cur : JsString) : List JsString → List JsString
  | [] => if cur = [] then [] else [cur]
  | p :: pieces =>
    let joined := if cur = [] then p else cur ++ sep ++ p
    if joined.length ≤ size ∨ cur = [] then mergeFrom sep size joined pieces
    else cur :: mergeFrom sep size p pieces

/-- The pieces, joined as long as they are not too long. -/
def mergeGreedy (pieces : List JsString) (sep : JsString) (size : ℕ) : List JsString :=
  mergeFrom sep size [] pieces

/-- The text at fixed distances, from one place on. -/
def hardCut (size : ℕ+) (text : JsString) : List JsString :=
  if _h : text = [] then [] else text.take size :: hardCut size (text.drop size)
termination_by text.length
decreasing_by
  have hpos := List.length_pos_of_ne_nil ‹_›
  have hsize := size.pos
  rw [List.length_drop]
  omega

/-- The parts of the text that are not blank. -/
def piecesOf (sep text : JsString) : List JsString := (splitOn sep text).filter (trim · ≠ [])

/-- Cut a text at the given separators, one after the other. -/
def splitRecursive (size : ℕ+) : List JsString → JsString → List JsString
  | [], text =>
    if text.length ≤ size then if trim text = [] then [] else [text]
    else hardCut size text
  | sep :: seps, text =>
    if text.length ≤ size then if trim text = [] then [] else [text]
    else
      let pieces := piecesOf sep text
      if pieces.length ≤ 1 then splitRecursive size seps text
      else (mergeGreedy pieces sep size).flatMap fun m =>
        if m.length ≤ (size : ℕ) then [m] else splitRecursive size seps m

/-- Every chunk but the first begins with the end of the one before. -/
def applyOverlap (chunks : List JsString) (overlap : ℕ) : List JsString :=
  if overlap = 0 ∨ chunks.length ≤ 1 then chunks
  else chunks.take 1 ++
    List.zipWith (fun prev c => prev.rtake overlap ++ c) chunks chunks.tail

/-! ## Sections -/

/-- A part of a markdown text, under its headings. -/
structure Section where
  heading : Option JsString
  body : JsString

/-- A heading: its level and title, `/^(#{1,6})\s+(.+)$/`. As much white space as can be is taken
    before the title. -/
def heading? (line : JsString) : Option (ℕ × JsString) :=
  let level := (line.takeWhile (· = 35)).length
  let rest := line.drop level
  let spaces := (rest.takeWhile isSpace).length
  if 1 ≤ level ∧ level ≤ 6 then
    (((List.range' 1 spaces).reverse.map rest.drop).find? fun title =>
      title ≠ [] ∧ title.all (!isLineTerminator ·)).map fun title => (level, trim title)
  else none

/-- The loop of `splitMarkdownSections`. -/
structure SectionState where
  sections : List Section
  crumbs : List (ℕ × JsString)
  buf : List JsString

/-- What is between two lines. -/
def NEWLINE : UInt16 := 10

/-- End the section. -/
def SectionState.flush (s : SectionState) : SectionState :=
  let body := [NEWLINE].intercalate s.buf
  if trim body = [] then { s with buf := [] }
  else
    let heading := (js " > ").intercalate (s.crumbs.map (·.2))
    { s with
      sections := s.sections ++ [⟨if heading = [] then none else some heading, body⟩]
      buf := [] }

/-- One line. -/
def SectionState.line (s : SectionState) (line : JsString) : SectionState :=
  match heading? line with
  | some (level, title) =>
    let s := s.flush
    { s with crumbs := s.crumbs.rdropWhile (level ≤ ·.1) ++ [(level, title)] }
  | none => { s with buf := s.buf ++ [line] }

def splitMarkdownSections (text : JsString) : List Section :=
  ((text.splitOn NEWLINE).foldl SectionState.line ⟨[], [], []⟩).flush.sections

/-! ## Texts and documents -/

/-- The windows of a text, from one place on. -/
def windows (o : ResolvedOpts) (text : JsString) : List JsString :=
  if _h : text = [] then []
  else text.take o.size ::
    if text.length ≤ o.size then [] else windows o (text.drop (o.size - o.overlap))
termination_by text.length
decreasing_by
  have hpos := List.length_pos_of_ne_nil ‹_›
  have hlt := o.overlap_lt
  rw [List.length_drop]
  omega

/-- The chunks of one section. -/
def sectionChunks (o : ResolvedOpts) (s : Section) : List Chunk :=
  (applyOverlap (splitRecursive o.size SEPARATORS (trim s.body)) o.overlap).map (⟨·, s.heading⟩)

/-- The chunks of a text, with options that have been checked. -/
def chunksOf (o : ResolvedOpts) (text : JsString) : List Chunk :=
  if trim text = [] then []
  else match o.strategy with
    | .character => (windows o text).map (⟨·, none⟩)
    | .markdown => (splitMarkdownSections text).flatMap (sectionChunks o)
    | .recursive =>
      (applyOverlap (splitRecursive o.size SEPARATORS text) o.overlap).map (⟨·, none⟩)

def chunkText (text : JsString) (opts : ChunkOptions) : Except JsString (List Chunk) :=
  (resolveOpts opts).map (chunksOf · text)

structure VectorDoc where
  id : JsString
  text : JsString
  metadata : Option (List (JsString × JsValue))
  namespaceOf : Option JsString
  owner : Option JsString
  shared : Option Bool

/-- The document of a chunk. -/
def VectorDoc.ofChunk (doc : VectorDoc) (c : Chunk) (i : ℕ) : VectorDoc where
  id := doc.id ++ js "#" ++ decimal i
  text := c.text
  metadata :=
    let fields := setField (js "source") (.str doc.id) (doc.metadata.getD [])
    let fields := setField (js "chunk") (.num (decimal i)) fields
    some (match c.heading with
      | none => fields
      | some heading => setField (js "heading") (.str heading) fields)
  namespaceOf := doc.namespaceOf
  owner := doc.owner
  shared := if doc.shared = some true then some true else none

/-- The documents that stand for one. -/
def VectorDoc.chunked (doc : VectorDoc) (chunks : List Chunk) : List VectorDoc :=
  if chunks.length ≤ 1 then [doc] else chunks.mapIdx fun i c => doc.ofChunk c i

def chunkDocuments (docs : List VectorDoc) (opts : ChunkOptions) : Except JsString (List VectorDoc) :=
  (docs.mapM fun doc => (chunkText doc.text opts).map doc.chunked).map List.flatten

end Gnldev.Rag
