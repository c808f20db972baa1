import Gnldev.Rag.Chunk

/-!
# Server-sent events

The body of an answer comes in chunks, which end anywhere; its frames end with an empty line
(`sse.ts`).

* `parseSSEStream`: the events of the chunks;
* `events_of_body`: they are those of the body.
-/

namespace Gnldev.Client

variable {J : Type}

/-- An event; what cannot be parsed stays a text. -/
structure SseEvent (J : Type) where
  event : JsString
  data : J ⊕ JsString

section Parse

variable (parse : JsString → Option J)

def parseLine (e : JsString × JsString) (line : JsString) : JsString × JsString :=
  if line.startsWith (js "event:") then (Rag.trim (line.drop 6), e.2)
  else if line.startsWith (js "data:") then (e.1, e.2 ++ Rag.trim (line.drop 5))
  else e

/-- A frame without data is none. `parse` is that of JSON. -/
def parseFrame (frame : JsString) : Option (SseEvent J) :=
  let (event, data) := (frame.splitOn 10).foldl parseLine (js "message", [])
  if data = [] then none
  else some ⟨event, match parse data with
    | some value => .inl value
    | none => .inr data⟩

/-- The frames in the buffer, and what is left of it. -/
def takeFrames : JsString → List JsString × JsString
  | u :: v :: buf =>
    if u = 10 ∧ v = 10 then ([] :: (takeFrames buf).1, (takeFrames buf).2)
    else
      match takeFrames (v :: buf) with
      | (frame :: frames, rest) => ((u :: frame) :: frames, rest)
      | ([], rest) => ([], u :: rest)
  | buf => ([], buf)

/-- The events of the chunks, as they are decoded, from the buffer `buf` on. -/
def parseSSEStream (buf : JsString) : List JsString → List (SseEvent J)
  | [] => (parseFrame parse buf).toList
  | chunk :: chunks =>
    let taken := takeFrames (buf ++ chunk)
    taken.1.filterMap (parseFrame parse) ++ parseSSEStream taken.2 chunks

end Parse

theorem rest_eq {s : JsString} (h : (takeFrames s).1 = []) : (takeFrames s).2 = s := by
  fun_induction takeFrames s <;> simp_all

/-- Frames that are complete stay so, and what is left goes on. -/
theorem takeFrames_append (s t : JsString) : takeFrames (s ++ t) =
    ((takeFrames s).1 ++ (takeFrames ((takeFrames s).2 ++ t)).1,
      (takeFrames ((takeFrames s).2 ++ t)).2) := by
  fun_induction takeFrames s with
  | case1 u v buf h ih => simp [takeFrames, h, ih]
  | case2 u v buf h frame frames rest heq ih =>
    rw [heq] at ih
    simp_all [takeFrames]
  | case3 u v buf h rest heq ih =>
    obtain rfl : rest = v :: buf := by simpa [heq] using rest_eq (s := v :: buf) (by rw [heq])
    simp
  | case4 buf h => rfl

/-- However the body is cut into chunks, its events are the same. -/
theorem events_of_body (parse : JsString → Option J) (chunks : List JsString) :
    parseSSEStream parse [] chunks = parseSSEStream parse [] [chunks.flatten] := by
  rcases chunks with _ | ⟨chunk, chunks⟩
  · rfl
  generalize ([] : JsString) = buf
  induction chunks generalizing buf chunk with
  | nil => rw [List.flatten_singleton]
  | cons chunk' chunks ih =>
    have happend := takeFrames_append (buf ++ chunk) (chunk' :: chunks).flatten
    rw [List.append_assoc, ← List.flatten_cons] at happend
    rw [parseSSEStream, ih]
    simp only [parseSSEStream, happend, List.filterMap_append, List.append_assoc]

end Gnldev.Client
