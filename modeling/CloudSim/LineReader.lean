import CloudSim.Blocks
import CloudSim.Lines
import CloudSim.Runs

/-! The buffered reader of a file's lines, which fills its third block in a thread of its own. -/
namespace CloudSim

open Runs Blocks Lines

/-- The block that a second thread reads while the lines before it are taken. Counts of `-1` are
`none`. -/
structure AsynchronousReader where
  /-- What is left of the file; `none` when `init` was never called. -/
  byteSource : Option (List UInt8) := none
  buffer : Nat := 0
  desiredByteCount : Option Nat := none
  readByteCount : Option Nat := none
  /-- The thread has left its loop. -/
  ended : Bool := false

namespace AsynchronousReader

def isValid (r : AsynchronousReader) : Bool := r.byteSource.isSome

/-- Nothing wakes a thread that has ended. -/
def startRead (r : AsynchronousReader) (buffer desiredByteCount : Nat) : AsynchronousReader :=
  { r with buffer := buffer, desiredByteCount := some desiredByteCount, readByteCount := none }

/-- `none` while the caller waits. -/
def finishRead (r : AsynchronousReader) : Option Nat := r.readByteCount

/-- The bytes read in one round of the thread's loop; `none` while it waits, or after its end. -/
def work (r : AsynchronousReader) : Option (List UInt8 × AsynchronousReader) :=
  if r.ended then none
  else match r.desiredByteCount,r.byteSource with
    | some desired,some source =>
      let bytes := source.take desired
      some (bytes,{ r with
        byteSource := some (source.drop desired)
        desiredByteCount := none
        readByteCount := some bytes.length
        ended := bytes.length == 0 })
    | _,_ => none

end AsynchronousReader

structure LineLengthLimitExceeded where
  fileName : List UInt8
  fileLine : Int32
  deriving DecidableEq

structure LineReader where
  buffer : Nat → UInt8
  reader : AsynchronousReader
  dataBegin : Nat
  dataEnd : Nat
  fileName : List UInt8
  fileLine : UInt32

namespace LineReader

def newline : UInt8 := 10
def carriageReturn : UInt8 := 13

def maxFileNameLength : Nat := 255

/-- The reader of a file just opened. The memory comes with arbitrary bytes in it. -/
def init (blockLen : Nat) (memory : Nat → UInt8) (fileName file : List UInt8) : LineReader :=
  let first := file.take (2*blockLen)
  let buffer := store memory 0 first
  { buffer := buffer
    -- the UTF-8 byte order mark
    dataBegin :=
      if 3 ≤ first.length ∧ buffer 0 = 0xEF ∧ buffer 1 = 0xBB ∧ buffer 2 = 0xBF then 3 else 0
    dataEnd := first.length
    fileName := fileName.take maxFileNameLength
    fileLine := 0
    reader :=
      if first.length = 2*blockLen then
        ({ byteSource := some (file.drop (2*blockLen)) } : AsynchronousReader).startRead
          (2*blockLen) blockLen
      else {} }

/-- One round of the reading thread. -/
def work (r : LineReader) : Option LineReader :=
  r.reader.work.map fun (bytes,reader) =>
    { r with buffer := store r.buffer r.reader.buffer bytes, reader := reader }

/-- The second block moves to the front once the first is used up, and the third to its place. -/
def shift (blockLen : Nat) (r : LineReader) : Option LineReader :=
  if blockLen ≤ r.dataBegin then
    let buffer := memcpy r.buffer 0 blockLen blockLen
    let dataBegin := r.dataBegin - blockLen
    let dataEnd := r.dataEnd - blockLen
    if r.reader.isValid then
      r.reader.finishRead.map fun count =>
        { r with
          buffer := memcpy buffer blockLen (2*blockLen) blockLen
          dataBegin := dataBegin
          dataEnd := dataEnd + count
          reader := r.reader.startRead (2*blockLen) blockLen }
    else some { r with buffer := buffer, dataBegin := dataBegin, dataEnd := dataEnd }
  else some r

/-- The scan for the end of a line, over the given number of bytes at most. -/
def findLineEnd (buffer : Nat → UInt8) (lineEnd : Nat) : Nat → Nat
  | 0 => lineEnd
  | left + 1 =>
    if buffer lineEnd ≠ newline then findLineEnd buffer (lineEnd + 1) left else lineEnd

/-- The bytes before the first `'\0'`, of which there is one within `bound`. -/
def cString (buffer : Nat → UInt8) (start bound : Nat) : List UInt8 :=
  (block buffer start bound).takeWhile (· ≠ 0)

/-- The line at `dataBegin`, cut off in the buffer. -/
def takeLine (blockLen : Nat) (r : LineReader) :
    Except LineLengthLimitExceeded (List UInt8) × LineReader :=
  let lineEnd := findLineEnd r.buffer r.dataBegin (r.dataEnd - r.dataBegin)
  if blockLen < lineEnd - r.dataBegin + 1 then
    (.error { fileName := r.fileName, fileLine := r.fileLine.toInt32 },r)
  else
    -- some files are missing the newline at the end of the last line
    let dataEnd :=
      if lineEnd ≠ r.dataEnd ∧ r.buffer lineEnd = newline then r.dataEnd else r.dataEnd + 1
    let cut := store r.buffer lineEnd [0]
    -- windows line breaks
    let buffer :=
      if lineEnd ≠ r.dataBegin ∧ cut (lineEnd - 1) = carriageReturn then
        store cut (lineEnd - 1) [0]
      else cut
    (.ok (cString buffer r.dataBegin (lineEnd - r.dataBegin + 1)),
      { r with buffer := buffer, dataBegin := lineEnd + 1, dataEnd := dataEnd })

/-- The next line, `.ok none` at the end of the file. The whole is `none` while the call waits for
the third block. -/
def nextLine (blockLen : Nat) (r : LineReader) :
    Option (Except LineLengthLimitExceeded (Option (List UInt8)) × LineReader) :=
  if r.dataBegin = r.dataEnd then some (.ok none,r)
  else
    (shift blockLen { r with fileLine := r.fileLine + 1 }).map fun shifted =>
      let (line,next) := takeLine blockLen shifted
      (line.map some,next)

/-- What a caller gets for a line of the file. -/
def text (line : List UInt8) : List UInt8 :=
  (if line.getLast? = some carriageReturn then line.dropLast else line).takeWhile (· ≠ 0)

theorem findLineEnd_eq (buffer : Nat → UInt8) (lineEnd left : Nat) :
    findLineEnd buffer lineEnd left =
      lineEnd + ((block buffer lineEnd left).takeWhile (· ≠ newline)).length := by
  induction left generalizing lineEnd with
  | zero => rfl
  | succ left ih =>
    have split : block buffer lineEnd (left + 1) =
        buffer lineEnd :: block buffer (lineEnd + 1) left := by
      rw [Nat.add_comm left,block_add]
      rfl
    rw [findLineEnd,split]
    by_cases ends : buffer lineEnd = newline
    · simp [ends]
    · simp only [ih,List.takeWhile_cons,ends,ne_eq,not_false_eq_true,decide_true,if_true,
        List.length_cons]
      omega

theorem takeWhile_terminated (line : List UInt8) (more : List UInt8) :
    (line ++ 0 :: more).takeWhile (· ≠ 0) = line.takeWhile (· ≠ 0) := by
  induction line with
  | nil => simp
  | cons c line ih => simp only [List.cons_append,List.takeWhile_cons,ih]

/-- Cutting a line off in the buffer leaves its text there as a string. -/
theorem cString_cut (buffer : Nat → UInt8) (start length : Nat) :
    cString
      (if length ≠ 0 ∧ buffer (start + length - 1) = carriageReturn then
        store (store buffer (start + length) [0]) (start + length - 1) [0]
      else store buffer (start + length) [0]) start (length + 1) =
      text (block buffer start length) := by
  have last : ∀ m : Nat → UInt8, block m start (length + 1) =
      block m start length ++ [m (start + length)] := fun m => block_add m start length 1
  have ends : store buffer (start + length) [0] (start + length) = 0 :=
    store_one (start + length) 0
  unfold cString text
  cases length with
  | zero =>
    rw [if_neg (fun both => both.1 rfl),last,ends]
    rfl
  | succ length =>
    have next : ∀ m : Nat → UInt8, block m start (length + 1) =
        block m start length ++ [m (start + length)] := fun m => block_add m start length 1
    by_cases windows : buffer (start + length) = carriageReturn
    · have cut : store (store buffer (start + (length + 1)) [0]) (start + length) [0]
          (start + length) = 0 := store_one (start + length) 0
      rw [if_pos ⟨Nat.succ_ne_zero length,windows⟩,last,next]
      rw [show start + (length + 1) - 1 = start + length by omega,cut,
        block_store_below _ le_rfl,block_store_below _ (by omega),List.append_assoc,
        List.singleton_append,takeWhile_terminated,next,windows]
      simp
    · rw [if_neg (fun both => windows both.2),last,ends,block_store_below _ le_rfl,
        takeWhile_terminated,next]
      simp [windows]

end LineReader

end CloudSim
