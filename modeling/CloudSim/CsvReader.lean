import CloudSim.LineReader
import Mathlib.Data.List.DropRight
import Mathlib.Data.List.FinRange

/-! Rows of columns in the lines of a file, in the order that the header gives. -/
namespace CloudSim

def ascii (s : String) : List UInt8 := s.toList.map fun c => UInt8.ofNat c.toNat

namespace Csv

def comma : UInt8 := 44

def maxColumnNameLength : Nat := 63

def maxColumnContentLength : Nat := 63

inductive IntegerError where
  | noDigit | integerOverflow
  deriving DecidableEq, Repr

/-- What reading throws, with the fields that the `catch` blocks on its way fill in. -/
inductive Error where
  | lineLengthLimitExceeded (error : LineLengthLimitExceeded)
  | headerMissing (fileName : List UInt8)
  | extraColumnInHeader (fileName columnName : List UInt8)
  | missingColumnInHeader (fileName columnName : List UInt8)
  | duplicatedColumnInHeader (fileName columnName : List UInt8)
  | tooFewColumns (fileName : List UInt8) (fileLine : Int32)
  | tooManyColumns (fileName : List UInt8) (fileLine : Int32)
  | integer (error : IntegerError) (fileName : List UInt8) (fileLine : Int32)
      (columnName columnContent : List UInt8)
  deriving DecidableEq

/-- The first column of a line and the line behind its comma, `none` after the last column. -/
def chopNextColumn (line : List UInt8) : List UInt8 × Option (List UInt8) :=
  (line.takeWhile (· ≠ comma),
    match line.dropWhile (· ≠ comma) with
    | [] => none
    | _ :: rest => some rest)

def isTrimChar (c : UInt8) : Bool := c == 32 || c == 9

def trim (col : List UInt8) : List UInt8 := (col.dropWhile isTrimChar).rdropWhile isTrimChar

theorem chopNextColumn_shorter {line col rest : List UInt8}
    (chopped : chopNextColumn line = (col,some rest)) : rest.length < line.length := by
  have shorter := (line.dropWhile_sublist (· ≠ comma)).length_le
  obtain ⟨-,more⟩ := Prod.mk.inj chopped
  split at more
  · cases more
  · rename_i remains
    cases more
    rw [remains,List.length_cons] at shorter
    exact shorter

/-- The errors of the header, without the name of the file. -/
inductive HeaderError where
  | extraColumn (columnName : List UInt8)
  | missingColumn (columnName : List UInt8)
  | duplicatedColumn (columnName : List UInt8)
  deriving DecidableEq

/-- The place of one column of the header, and which columns are found with it. -/
def headerColumn (colName : Fin n → List UInt8) (ignoreExtra : Bool) (found : Fin n → Bool)
    (col : List UInt8) : Except HeaderError (Option (Fin n) × (Fin n → Bool)) :=
  match (List.finRange n).find? fun i => colName i = col with
  | some i =>
    if found i then .error (.duplicatedColumn (col.take maxColumnNameLength))
    else .ok (some i,Function.update found i true)
  | none =>
    if ignoreExtra then .ok (none,found)
    else .error (.extraColumn (col.take maxColumnNameLength))

/-- The loop over the columns of the header, with what it adds to `col_order`. -/
def headerColumns (colName : Fin n → List UInt8) (ignoreExtra : Bool) (found : Fin n → Bool)
    (line : List UInt8) : Except HeaderError (List (Option (Fin n)) × (Fin n → Bool)) :=
  match headerColumn colName ignoreExtra found (trim (chopNextColumn line).1),
      chopped : chopNextColumn line with
  | .error e,_ => .error e
  | .ok (i,found),(_,none) => .ok ([i],found)
  | .ok (i,found),(col,some rest) =>
    have := chopNextColumn_shorter chopped
    (headerColumns colName ignoreExtra found rest).map fun (order,found) => (i :: order,found)
termination_by line.length

def parseHeaderLine (colName : Fin n → List UInt8) (ignoreExtra ignoreMissing : Bool)
    (line : List UInt8) : Except HeaderError (List (Option (Fin n))) :=
  match headerColumns colName ignoreExtra (fun _ => false) line with
  | .error e => .error e
  | .ok (order,found) =>
    match (List.finRange n).find? fun i => !found i with
    | some i =>
      if ignoreMissing then .ok order
      else .error (.missingColumn ((colName i).take maxColumnNameLength))
    | none => .ok order

inductive RowError where
  | tooFewColumns | tooManyColumns
  deriving DecidableEq

/-- The columns of a line, each at its place. A column of the line that is not read has no place. -/
def parseLine (sortedCol : Fin n → Option (List UInt8)) :
    (colOrder : List (Option (Fin n))) → (line : Option (List UInt8)) →
      Except RowError (Fin n → Option (List UInt8))
  | [],none => .ok sortedCol
  | [],some _ => .error .tooManyColumns
  | _ :: _,none => .error .tooFewColumns
  | i :: colOrder,some line =>
    let (col,rest) := chopNextColumn line
    match i with
    | some i => parseLine (Function.update sortedCol i (some (trim col))) colOrder rest
    | none => parseLine sortedCol colOrder rest

def isDigit (c : UInt8) : Bool := 48 ≤ c && c ≤ 57

def digit (c : UInt8) : UInt32 := (c - 48).toUInt32

/-- The loop over the digits, `x` being the number so far. An overflow is thrown. -/
def parseUnsignedInteger (x : UInt32) : List UInt8 → Except IntegerError UInt32
  | [] => .ok x
  | c :: col =>
    if isDigit c then
      if (4294967295 - digit c)/10 < x then .error .integerOverflow
      else parseUnsignedInteger (10*x + digit c) col
    else .error .noDigit

end Csv

/-- The columns that a reader looks for, the order in which its file has them, and the row it has
read last. -/
structure CsvReader (n : Nat) where
  fileName : List UInt8
  columnNames : Fin n → List UInt8
  colOrder : List (Option (Fin n))
  row : Fin n → Option (List UInt8) := fun _ => none

namespace CsvReader

open Csv

/-- The header, from what `next_line` returns. -/
def readHeader (fileName : List UInt8) (columnNames : Fin n → List UInt8)
    (ignoreExtra ignoreMissing : Bool)
    (line : Except LineLengthLimitExceeded (Option (List UInt8))) : Except Error (CsvReader n) :=
  match line with
  | .error e => .error (.lineLengthLimitExceeded e)
  | .ok none => .error (.headerMissing fileName)
  | .ok (some line) =>
    match parseHeaderLine columnNames ignoreExtra ignoreMissing line with
    | .error (.extraColumn name) => .error (.extraColumnInHeader fileName name)
    | .error (.missingColumn name) => .error (.missingColumnInHeader fileName name)
    | .error (.duplicatedColumn name) => .error (.duplicatedColumnInHeader fileName name)
    | .ok colOrder =>
      .ok { fileName := fileName, columnNames := columnNames, colOrder := colOrder }

/-- The columns of the next row, from what `next_line` returns; `none` at the end of the file. -/
def readLine (r : CsvReader n) (fileLine : Int32)
    (line : Except LineLengthLimitExceeded (Option (List UInt8))) :
    Except Error (Option (CsvReader n)) :=
  match line with
  | .error e => .error (.lineLengthLimitExceeded e)
  | .ok none => .ok none
  | .ok (some line) =>
    match parseLine r.row r.colOrder (some line) with
    | .error .tooFewColumns => .error (.tooFewColumns r.fileName fileLine)
    | .error .tooManyColumns => .error (.tooManyColumns r.fileName fileLine)
    | .ok row => .ok (some { r with row := row })

/-- A variable of the caller, unless the file lacks its column. -/
def parseUnsigned (r : CsvReader n) (fileLine : Int32) (column : Fin n) (current : UInt32) :
    Except Error UInt32 :=
  match r.row column with
  | none => .ok current
  | some col =>
    match parseUnsignedInteger 0 col with
    | .ok x => .ok x
    | .error e => .error (.integer e r.fileName fileLine
        ((r.columnNames column).take maxColumnNameLength) (col.take maxColumnContentLength))

def parseString (r : CsvReader n) (column : Fin n) (current : List UInt8) : List UInt8 :=
  (r.row column).getD current

end CsvReader

end CloudSim
