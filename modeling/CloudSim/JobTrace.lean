import CloudSim.CsvColumns
import CloudSim.Placement

/-! The jobs that `main` reads from the file of a trace, whatever the order of its columns. -/
namespace CloudSim

open Csv

/-- The variables that a row is read into. They keep what they hold where a column is missing. -/
structure Variables where
  numGpu : UInt32
  duration : UInt32
  submitTime : UInt32
  iterations : UInt32 := 0
  model : List UInt8 := ascii "resnet50"
  deriving DecidableEq

/-- The divisions by the two shrink factors are in floating point. -/
structure LoadSettings where
  /-- `unsigned(iterations / shrink_iter_factor)` -/
  shrinkIterations : UInt32 → UInt32
  /-- `timeFromSec(submit_time / shrink_arrival_factor)` -/
  arrival : UInt32 → UInt64
  gpuScaleFactor : UInt32 := 1
  maxJobs : UInt32 := 4294967295

/-- What the constructor of a job is given. -/
structure JobArguments where
  submitTime : UInt64
  model : List UInt8
  iterations : UInt32
  gpu : UInt32
  deriving DecidableEq

namespace JobTrace

abbrev numGpuColumn : Fin 5 := 0
abbrev durationColumn : Fin 5 := 1
abbrev submitTimeColumn : Fin 5 := 2
abbrev iterationsColumn : Fin 5 := 3
abbrev modelColumn : Fin 5 := 4

def columnName : Fin 5 → List UInt8
  | 0 => ascii "num_gpu"
  | 1 => ascii "duration"
  | 2 => ascii "submit_time"
  | 3 => ascii "iterations"
  | 4 => ascii "model"

def readRow (r : CsvReader 5) (v : Variables) (fileLine : Int32)
    (line : Except LineLengthLimitExceeded (Option (List UInt8))) :
    Except Error (Option (CsvReader 5 × Variables)) := do
  match ← r.readLine fileLine line with
  | none => pure none
  | some r =>
    let numGpu ← r.parseUnsigned fileLine numGpuColumn v.numGpu
    let duration ← r.parseUnsigned fileLine durationColumn v.duration
    let submitTime ← r.parseUnsigned fileLine submitTimeColumn v.submitTime
    let iterations ← r.parseUnsigned fileLine iterationsColumn v.iterations
    pure (some (r,{
      numGpu := numGpu
      duration := duration
      submitTime := submitTime
      iterations := iterations
      model := r.parseString modelColumn v.model }))

def job (settings : LoadSettings) (v : Variables) : JobArguments :=
  let iters := settings.shrinkIterations v.iterations
  { submitTime := settings.arrival v.submitTime
    model := v.model
    iterations := if iters = 0 then 1 else iters
    gpu := v.numGpu*settings.gpuScaleFactor }

/-- The loop over the rows. `lines` are still to come, with `ending` behind them. -/
def readRows (settings : LoadSettings) (ending : Except LineLengthLimitExceeded Unit)
    (r : CsvReader 5) (v : Variables) (counter fileLine : UInt32) :
    (lines : List (List UInt8)) → Except Error (List JobArguments)
  | [] => (readRow r v (fileLine + 1).toInt32 (ending.map fun _ => none)).map fun _ => []
  | line :: lines =>
    match readRow r v (fileLine + 1).toInt32 (.ok (some line)) with
    | .error e => .error e
    | .ok none => .ok []
    | .ok (some (r,v)) =>
      if counter < settings.maxJobs then
        (readRows settings ending r v (counter + 1) (fileLine + 1) lines).map (job settings v :: ·)
      else .ok []

/-- The jobs of a file with the given lines. -/
def loadJobs (settings : LoadSettings) (v : Variables) (fileName : List UInt8)
    (ending : Except LineLengthLimitExceeded Unit) :
    (lines : List (List UInt8)) → Except Error (List JobArguments)
  | [] => (CsvReader.readHeader fileName columnName false true (ending.map fun _ => none)).map
      fun _ => []
  | header :: lines =>
    match CsvReader.readHeader fileName columnName false true (.ok (some header)) with
    | .error e => .error e
    | .ok r => readRows settings ending r v 0 1 lines

def Shows (cell : List UInt8) (v : Variables) : (column : Fin 5) → Prop
  | 0 => Numeral cell v.numGpu
  | 1 => Numeral cell v.duration
  | 2 => Numeral cell v.submitTime
  | 3 => Numeral cell v.iterations
  | 4 => cell = v.model

def Same (v w : Variables) : (column : Fin 5) → Prop
  | 0 => v.numGpu = w.numGpu
  | 1 => v.duration = w.duration
  | 2 => v.submitTime = w.submitTime
  | 3 => v.iterations = w.iterations
  | 4 => v.model = w.model

/-- A line with the columns in the order of the header, for the variables to be read from it. -/
structure Reads (order : List (Fin 5)) (initial : Variables) (line : List UInt8) (v : Variables) :
    Prop where
  columns : (columnsOf line).length = order.length
  shown : ∀ i cell, (i,cell) ∈ order.zip (columnsOf line) → Shows cell v i
  kept : ∀ i, i ∉ order → Same v initial i

theorem columnName_injective : Function.Injective columnName := by
  have distinct : ∀ i j, columnName i = columnName j → i = j := by decide
  exact fun i j => distinct i j

theorem bind_ok {E A B : Type} {x : Except E A} {f : A → Except E B} {b : B} :
    x >>= f = .ok b ↔ ∃ a, x = .ok a ∧ f a = .ok b := by
  cases x with
  | error e => simp [bind,Except.bind]
  | ok a => simp [bind,Except.bind]

theorem map_ok {E A B : Type} {x : Except E A} {f : A → B} {b : B} :
    x.map f = .ok b ↔ ∃ a, x = .ok a ∧ b = f a := by
  cases x with
  | error e => simp [Except.map]
  | ok a => simp [Except.map,eq_comm]

theorem parseUnsigned_ok (r : CsvReader 5) (fileLine : Int32) (column : Fin 5)
    (current x : UInt32) :
    r.parseUnsigned fileLine column current = .ok x ↔
      (r.row column = none → x = current) ∧
        ∀ cell, r.row column = some cell → Numeral cell x := by
  unfold CsvReader.parseUnsigned
  cases r.row column with
  | none => simp [eq_comm]
  | some cell =>
    have number := parseUnsignedInteger_ok cell x
    cases parsed : parseUnsignedInteger 0 cell with
    | error e => simp_all
    | ok y => simp_all

theorem parseString_eq (r : CsvReader 5) (column : Fin 5) (current x : List UInt8) :
    x = r.parseString column current ↔
      (r.row column = none → x = current) ∧ ∀ cell, r.row column = some cell → cell = x := by
  unfold CsvReader.parseString
  cases r.row column with
  | none => simp
  | some cell => simp [eq_comm]

theorem forall_columns {P : Fin 5 → Prop} : (∀ i, P i) ↔ P 0 ∧ P 1 ∧ P 2 ∧ P 3 ∧ P 4 := by
  simp [Fin.forall_fin_succ]

/-- A row is read when each of its columns has a value for its variable. -/
theorem readRow_values (r r' : CsvReader 5) (v w : Variables) (fileLine : Int32)
    (line : List UInt8) :
    readRow r v fileLine (.ok (some line)) = .ok (some (r',w)) ↔
      r.readLine fileLine (.ok (some line)) = .ok (some r') ∧
        ∀ i, (r'.row i = none → Same w v i) ∧ ∀ cell, r'.row i = some cell → Shows cell w i := by
  simp only [readRow,bind_ok]
  rw [forall_columns]
  constructor
  · rintro ⟨read,ok,rest⟩
    cases read with
    | none => cases rest
    | some read =>
      obtain ⟨numGpu,first,duration,second,submitTime,third,iterations,fourth,result⟩ :=
        by simpa only [bind_ok] using rest
      cases result
      exact ⟨ok,(parseUnsigned_ok ..).mp first,(parseUnsigned_ok ..).mp second,
        (parseUnsigned_ok ..).mp third,(parseUnsigned_ok ..).mp fourth,
        (parseString_eq ..).mp rfl⟩
  · rintro ⟨ok,first,second,third,fourth,fifth⟩
    refine ⟨some r',ok,?_⟩
    simp only [bind_ok]
    refine ⟨w.numGpu,(parseUnsigned_ok ..).mpr first,w.duration,(parseUnsigned_ok ..).mpr second,
      w.submitTime,(parseUnsigned_ok ..).mpr third,w.iterations,(parseUnsigned_ok ..).mpr fourth,?_⟩
    rw [← (parseString_eq ..).mpr fifth]
    rfl

theorem Same.refl {v : Variables} (i : Fin 5) : Same v v i := by
  match i with
  | 0 | 1 | 2 | 3 | 4 => exact rfl

theorem Same.symm {v w : Variables} {i : Fin 5} (same : Same v w i) : Same w v i := by
  match i with
  | 0 | 1 | 2 | 3 | 4 => exact Eq.symm same

theorem Same.trans {u v w : Variables} {i : Fin 5} (first : Same u v i) (second : Same v w i) :
    Same u w i := by
  match i with
  | 0 | 1 | 2 | 3 | 4 => exact Eq.trans first second

variable {order : List (Fin 5)} {r r' : CsvReader 5} {v w initial : Variables} {line : List UInt8}

theorem Reads.of_same (reads : Reads order v line w) (same : ∀ i, i ∉ order → Same v initial i) :
    Reads order initial line w :=
  ⟨reads.columns,reads.shown,fun i missing => (reads.kept i missing).trans (same i missing)⟩

theorem readLine_ok (header : r.colOrder = order.map some) (fileLine : Int32) :
    r.readLine fileLine (.ok (some line)) = .ok (some r') ↔
      (columnsOf line).length = order.length ∧
        r' = { r with row := place r.row (order.zip (columnsOf line)) } := by
  have parsed := fun row => parseLine_ok r.row row order (some line)
  rw [← header] at parsed
  cases result : parseLine r.row r.colOrder (some line) with
  | error e =>
    have fails : ¬(columnsOf line).length = order.length := fun same => by
      have ok := (parsed _).mpr ⟨same,rfl⟩
      rw [result] at ok
      cases ok
    cases e <;> simp [CsvReader.readLine,result,fails]
  | ok row =>
    obtain ⟨same,rfl⟩ := (parsed row).mp result
    simp only [CsvReader.readLine,result,Except.ok.injEq,Option.some.injEq]
    exact ⟨fun ok => ⟨same,ok.symm⟩,fun both => both.2.symm⟩

/-- The row that a reader with the given header has after a line. -/
theorem place_row (once : order.Nodup) (cells : List (List UInt8))
    (columns : cells.length = order.length) (empty : ∀ i, i ∉ order → r.row i = none) (i : Fin 5) :
    (i ∉ order ∧ place r.row (order.zip cells) i = none) ∨
      ∃ cell, (i,cell) ∈ order.zip cells ∧ place r.row (order.zip cells) i = some cell := by
  have keys : (order.zip cells).map Prod.fst = order := List.map_fst_zip columns.ge
  by_cases member : i ∈ order
  · rw [← keys] at member
    obtain ⟨⟨j,cell⟩,inside,rfl⟩ := List.mem_map.mp member
    exact Or.inr ⟨cell,inside,place_mem (by rwa [keys]) inside⟩
  · refine Or.inl ⟨member,(place_other fun cell inside => member ?_).trans (empty i member)⟩
    exact (List.of_mem_zip inside).1

theorem readRow_ok (once : order.Nodup) (header : r.colOrder = order.map some)
    (empty : ∀ i, i ∉ order → r.row i = none) (fileLine : Int32) :
    readRow r v fileLine (.ok (some line)) = .ok (some (r',w)) ↔
      Reads order v line w ∧ r' = { r with row := place r.row (order.zip (columnsOf line)) } := by
  rw [readRow_values,readLine_ok header]
  constructor
  · rintro ⟨⟨columns,rfl⟩,values⟩
    have row := place_row (r := r) once (columnsOf line) columns empty
    refine ⟨⟨columns,fun i cell member => ?_,fun i missing => ?_⟩,rfl⟩
    · have keys : (order.zip (columnsOf line)).map Prod.fst = order :=
        List.map_fst_zip columns.ge
      exact (values i).2 cell (place_mem (by rwa [keys]) member)
    · rcases row i with ⟨-,none⟩ | ⟨cell,member,-⟩
      · exact (values i).1 none
      · exact absurd (List.of_mem_zip member).1 missing
  · rintro ⟨reads,rfl⟩
    refine ⟨⟨reads.columns,rfl⟩,fun i => ?_⟩
    rcases place_row (r := r) once (columnsOf line) reads.columns empty i with
      ⟨missing,none⟩ | ⟨cell,member,found⟩
    · refine ⟨fun _ => reads.kept i missing,fun cell same => ?_⟩
      cases none.symm.trans same
    · refine ⟨fun same => ?_,fun other same => ?_⟩
      · cases found.symm.trans same
      · cases found.symm.trans same
        exact reads.shown i cell member

theorem readRow_not_none (fileLine : Int32) : readRow r v fileLine (.ok (some line)) ≠ .ok none := by
  intro ok
  simp only [readRow,bind_ok] at ok
  obtain ⟨read,ok,rest⟩ := ok
  cases read with
  | none =>
    cases result : parseLine r.row r.colOrder (some line) with
    | error e => cases e <;> simp [CsvReader.readLine,result] at ok
    | ok row => simp [CsvReader.readLine,result] at ok
  | some read =>
    simp only [bind_ok] at rest
    obtain ⟨_,_,_,_,_,_,_,_,none⟩ := rest
    cases none

/-- The loop reads one row more than it takes, and as many as there are otherwise. -/
theorem readRows_ok (once : order.Nodup) (header : r.colOrder = order.map some)
    (empty : ∀ i, i ∉ order → r.row i = none) (same : ∀ i, i ∉ order → Same v initial i)
    (settings : LoadSettings) (ending : Except LineLengthLimitExceeded Unit)
    (counter fileLine : UInt32) (lines : List (List UInt8)) (jobs : List JobArguments) :
    readRows settings ending r v counter fileLine lines = .ok jobs ↔
      ∃ values, List.Forall₂ (Reads order initial)
          (lines.take (settings.maxJobs.toNat - counter.toNat + 1)) values ∧
        jobs = (values.take (settings.maxJobs.toNat - counter.toNat)).map (job settings) ∧
        (lines.length ≤ settings.maxJobs.toNat - counter.toNat → ending = .ok ()) := by
  induction lines generalizing r v counter fileLine jobs with
  | nil =>
    cases ending with
    | error e =>
      have fails : readRows settings (.error e) r v counter fileLine [] =
          .error (.lineLengthLimitExceeded e) := rfl
      rw [fails]
      simp
    | ok =>
      have ends : readRows settings (.ok ()) r v counter fileLine [] = .ok [] := rfl
      rw [ends]
      simp [eq_comm]
  | cons line lines ih =>
    have row (r' : CsvReader 5) (w : Variables) :
        readRow r v (fileLine + 1).toInt32 (.ok (some line)) = .ok (some (r',w)) ↔
          Reads order v line w ∧
            r' = { r with row := place r.row (order.zip (columnsOf line)) } :=
      readRow_ok once header empty (fileLine + 1).toInt32
    rw [List.take_succ_cons,readRows]
    cases result : readRow r v (fileLine + 1).toInt32 (.ok (some line)) with
    | error e =>
      simp only [reduceCtorEq,false_iff]
      rintro ⟨values,reads,-,-⟩
      obtain ⟨w,values,first,-,rfl⟩ := List.forall₂_cons_left_iff.mp reads
      have ok := (row _ w).mpr ⟨first.of_same fun i missing => (same i missing).symm,rfl⟩
      rw [result] at ok
      cases ok
    | ok read =>
      cases read with
      | none => exact absurd result (readRow_not_none _)
      | some read =>
        obtain ⟨r',w⟩ := read
        obtain ⟨reads,rfl⟩ := (row r' w).mp result
        have first := reads.of_same same
        have unique : ∀ w', Reads order initial line w' → w' = w := fun w' other => by
          have ok := (row _ w').mpr ⟨other.of_same fun i missing => (same i missing).symm,rfl⟩
          rw [result] at ok
          exact (Prod.mk.inj (Option.some.inj (Except.ok.inj ok))).2.symm
        by_cases more : counter < settings.maxJobs
        · have less : counter.toNat < settings.maxJobs.toNat := UInt32.lt_iff_toNat_lt.mp more
          have next : (counter + 1).toNat = counter.toNat + 1 := by
            have bound := settings.maxJobs.toNat_lt
            rw [UInt32.toNat_add]
            exact Nat.mod_eq_of_lt (by change counter.toNat + 1 < 2^32; omega)
          have left : settings.maxJobs.toNat - counter.toNat =
              settings.maxJobs.toNat - (counter + 1).toNat + 1 := by omega
          have kept : ∀ i, i ∉ order →
              place r.row (order.zip (columnsOf line)) i = none := fun i missing => by
            rcases place_row (r := r) once (columnsOf line) reads.columns empty i with
              ⟨-,none⟩ | ⟨cell,member,-⟩
            · exact none
            · exact absurd (List.of_mem_zip member).1 missing
          have later := ih (r := { r with row := place r.row (order.zip (columnsOf line)) })
            (v := w) header kept first.kept (counter + 1) (fileLine + 1)
          simp only [if_pos more,map_ok,left,later]
          constructor
          · rintro ⟨rest,⟨values,others,rfl,ends⟩,rfl⟩
            exact ⟨w :: values,.cons first others,rfl,fun few => ends (Nat.le_of_succ_le_succ few)⟩
          · rintro ⟨values,reads,rfl,ends⟩
            obtain ⟨w',values,other,others,rfl⟩ := List.forall₂_cons_left_iff.mp reads
            obtain rfl := unique w' other
            exact ⟨_,⟨values,others,rfl,fun few => ends (Nat.succ_le_succ few)⟩,rfl⟩
        · have left : settings.maxJobs.toNat - counter.toNat = 0 := by
            have most := mt UInt32.lt_iff_toNat_lt.mpr more
            omega
          simp only [if_neg more,left,Except.ok.injEq]
          constructor
          · rintro rfl
            exact ⟨[w],.cons first .nil,rfl,fun few => by cases few⟩
          · rintro ⟨values,-,rfl,-⟩
            rfl

/-- A trace is loaded exactly when its header has known names, none twice, and every row that is
read has a value in each of these columns: its jobs are then those of the rows, in any order of the
columns. One row behind the last job is read as well. -/
theorem loadJobs_iff (settings : LoadSettings) (initial : Variables) (fileName : List UInt8)
    (ending : Except LineLengthLimitExceeded Unit) (lines : List (List UInt8))
    (jobs : List JobArguments) :
    loadJobs settings initial fileName ending lines = .ok jobs ↔
      ∃ header rows order values, lines = header :: rows ∧
        columnsOf header = order.map columnName ∧ order.Nodup ∧
        List.Forall₂ (Reads order initial) (rows.take (settings.maxJobs.toNat + 1)) values ∧
        jobs = (values.take settings.maxJobs.toNat).map (job settings) ∧
        (rows.length ≤ settings.maxJobs.toNat → ending = .ok ()) := by
  cases lines with
  | nil =>
    cases ending with
    | error e =>
      have fails : loadJobs settings initial fileName (.error e) [] =
          .error (.lineLengthLimitExceeded e) := rfl
      simp [fails]
    | ok =>
      have fails : loadJobs settings initial fileName (.ok ()) [] =
          .error (.headerMissing fileName) := rfl
      simp [fails]
  | cons header rows =>
    have accepted := parseHeaderLine_ok columnName_injective header
    cases result : parseHeaderLine columnName false true header with
    | error e =>
      have fails : ∃ e, loadJobs settings initial fileName ending (header :: rows) = .error e := by
        cases e <;> exact ⟨_,by simp only [loadJobs,CsvReader.readHeader,result]; rfl⟩
      obtain ⟨_,fails⟩ := fails
      simp only [fails,reduceCtorEq,false_iff]
      rintro ⟨_,_,order,_,same,names,once,-⟩
      obtain ⟨rfl,rfl⟩ := List.cons.inj same
      have ok := (accepted _).mpr ⟨order,names,once,rfl⟩
      rw [result] at ok
      cases ok
    | ok colOrder =>
      obtain ⟨order,names,once,rfl⟩ := (accepted colOrder).mp result
      have rest := readRows_ok
        (r := { fileName := fileName, columnNames := columnName, colOrder := order.map some })
        once rfl (fun _ _ => rfl) (fun i _ => (Same.refl i : Same initial initial i))
        settings ending 0 1 rows jobs
      have loads : loadJobs settings initial fileName ending (header :: rows) =
          readRows settings ending
            { fileName := fileName, columnNames := columnName, colOrder := order.map some }
            initial 0 1 rows := by
        simp only [loadJobs,CsvReader.readHeader,result]
      rw [loads,rest]
      constructor
      · rintro ⟨values,reads,rfl,ends⟩
        exact ⟨header,rows,order,values,rfl,names,once,reads,rfl,ends⟩
      · rintro ⟨_,_,other,values,same,names',-,reads,rfl,ends⟩
        obtain ⟨rfl,rfl⟩ := List.cons.inj same
        obtain rfl := columnName_injective.list_map (names.symm.trans names')
        exact ⟨values,reads,rfl,ends⟩

end JobTrace

end CloudSim
