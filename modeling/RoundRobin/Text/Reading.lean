import RoundRobin.Text.Utf8

/-!
# Reading texts from bytes

A file is read whole, line by line, or only for its first line. Bytes that are no text are refused.

A reader of lines takes the bytes in chunks. Bytes at the end of a chunk that await more are kept for
the next one, and a flaw is met with the chunk that it stands in, so its position counts from the
first byte that was kept or, if there is none, from the start of that chunk. A reader of the first
line stops at the chunk with which the line is complete, whatever follows.
-/

namespace RoundRobin.Text

/-- The whole text of a file. -/
def readWhole (bytes : Bytes) : Except Flaw (List Char) :=
  let decoded := decode bytes
  match decoded.flaw with
  | none => .ok decoded.chars
  | some f => .error f

/-- How many bytes a reader of lines takes at a time. -/
def chunkSize : Nat := 8192

/-- The bytes in chunks; the first chunk has room for the given number of them. -/
def chunksFrom : Nat → Bytes → List Bytes
  | _, [] => []
  | 0, b :: r => [] :: extendFirst b (chunksFrom (chunkSize - 1) r)
  | room + 1, b :: r => extendFirst b (chunksFrom room r)

/-- The chunks of a file. -/
def chunks (bytes : Bytes) : List Bytes := chunksFrom chunkSize bytes

/-- The characters gained from one more chunk after the bytes that were kept, and the bytes to keep. -/
def feed (kept chunk : Bytes) : Except Flaw (List Char × Bytes) :=
  let bytes := kept ++ chunk
  let decoded := decode bytes
  match decoded.flaw with
  | none => .ok (decoded.chars, [])
  | some f => if f.awaitsMore then .ok (decoded.chars, bytes.drop f.position) else .error f

/-- The text of the chunks that are left, after the bytes that were kept. -/
def readChunks (kept : Bytes) : List Bytes → Except Flaw (List Char)
  | [] => readWhole kept
  | chunk :: rest => do
    let (gained, kept) ← feed kept chunk
    let later ← readChunks kept rest
    return gained ++ later

/-- All lines of a file. -/
def readLines (bytes : Bytes) : Except Flaw (List (List Char)) := do
  let text ← readChunks [] (chunks bytes)
  return lines text

/-- Whether a text surely holds a complete line, whatever follows it. A carriage return at its end
may be half of a pair. -/
def hasCompleteLine (cs : List Char) : Bool :=
  (if cs.getLast? = some '\r' then cs.dropLast else cs).any isLineEnd

/-- The first line of a text of which a part is known, and bytes were kept. -/
def readFirstFrom (known : List Char) (kept : Bytes) :
    List Bytes → Except Flaw (Option (List Char))
  | [] => do
    let last ← readWhole kept
    return (lines (known ++ last)).head?
  | chunk :: rest => do
    let (gained, kept) ← feed kept chunk
    let known := known ++ gained
    if hasCompleteLine known then return (lines known).head? else readFirstFrom known kept rest

/-- The first line of a file; `none` for an empty file. -/
def readFirstLine (bytes : Bytes) : Except Flaw (Option (List Char)) :=
  readFirstFrom [] [] (chunks bytes)

end RoundRobin.Text
