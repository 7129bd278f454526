import CloudSim.JobTrace
import CloudSim.FileLines

/-! A trace written to a file in any layout is loaded as it was written. -/
namespace CloudSim

open Csv LineReader Lines Runs

structure Plain (content : List UInt8) : Prop where
  free : ∀ c ∈ content, c ≠ 0 ∧ c ≠ newline ∧ c ≠ carriageReturn ∧ c ≠ comma
  tight : trim content = content

/-- The ways to write a trace: the columns and their order, the blanks around the cells, the ends
of the lines and a byte order mark. -/
structure Layout where
  order : List (Fin 5)
  once : order.Nodup
  nonempty : order ≠ []
  before : Nat → Fin 5 → List UInt8
  after : Nat → Fin 5 → List UInt8
  blankBefore : ∀ line i, ∀ c ∈ before line i, isTrimChar c = true
  blankAfter : ∀ line i, ∀ c ∈ after line i, isTrimChar c = true
  windows : Nat → Bool
  mark : Bool

namespace JobTrace

def decimal (x : UInt32) : List UInt8 :=
  (Nat.toDigits 10 x.toNat).map fun c => UInt8.ofNat c.toNat

def contents (v : Variables) : Fin 5 → List UInt8
  | 0 => decimal v.numGpu
  | 1 => decimal v.duration
  | 2 => decimal v.submitTime
  | 3 => decimal v.iterations
  | 4 => v.model

end JobTrace

namespace Layout

open JobTrace

variable (layout : Layout)

def cell (line : Nat) (contents : Fin 5 → List UInt8) (i : Fin 5) : List UInt8 :=
  layout.before line i ++ contents i ++ layout.after line i

def cells (line : Nat) (contents : Fin 5 → List UInt8) : List UInt8 :=
  [comma].intercalate (layout.order.map (layout.cell line contents))

def line (line : Nat) (contents : Fin 5 → List UInt8) : List UInt8 :=
  layout.cells line contents ++ if layout.windows line then [carriageReturn] else []

def lines (values : List Variables) : List (List UInt8) :=
  layout.line 0 columnName :: (values.zipIdx 1).map fun (v,k) => layout.line k (contents v)

def file (values : List Variables) : List UInt8 :=
  (if layout.mark then [0xEF,0xBB,0xBF] else []) ++
    (layout.lines values).flatMap (· ++ [newline])

/-- What is read of a row: its columns are in the file. -/
def merge (initial v : Variables) : Variables where
  numGpu := if numGpuColumn ∈ layout.order then v.numGpu else initial.numGpu
  duration := if durationColumn ∈ layout.order then v.duration else initial.duration
  submitTime := if submitTimeColumn ∈ layout.order then v.submitTime else initial.submitTime
  iterations := if iterationsColumn ∈ layout.order then v.iterations else initial.iterations
  model := if modelColumn ∈ layout.order then v.model else initial.model

end Layout

namespace JobTrace

theorem digit_byte {c : Char} (digits : c.isDigit = true) :
    isDigit (UInt8.ofNat c.toNat) = true ∧ (UInt8.ofNat c.toNat).toNat = c.toNat := by
  have range : 48 ≤ c.toNat ∧ c.toNat ≤ 57 := Char.isDigit_iff_toNat.mp digits
  have value : (UInt8.ofNat c.toNat).toNat = c.toNat := by
    rw [UInt8.toNat_ofNat']
    omega
  refine ⟨?_,value⟩
  simp only [isDigit,Bool.and_eq_true,decide_eq_true_eq,UInt8.le_iff_toNat_le,value]
  exact range

theorem valueFrom_bytes (digits : List Char) (every : ∀ c ∈ digits, c.isDigit = true) (x : Nat) :
    valueFrom x (digits.map fun c => UInt8.ofNat c.toNat) = Nat.ofDigitChars 10 digits x := by
  induction digits generalizing x with
  | nil => rfl
  | cons c digits ih =>
    obtain ⟨first,rest⟩ := List.forall_mem_cons.mp every
    rw [Nat.ofDigitChars_cons,← ih rest]
    change valueFrom (10*x + ((UInt8.ofNat c.toNat).toNat - 48)) _ = _
    rw [(digit_byte first).2]
    rfl

theorem numeral_decimal (x : UInt32) : Numeral (decimal x) x := by
  have every : ∀ c ∈ Nat.toDigits 10 x.toNat, c.isDigit = true := fun c member =>
    Nat.isDigit_of_mem_toDigits (by decide) (by decide) member
  refine ⟨fun c member => ?_,?_⟩
  · obtain ⟨d,inside,rfl⟩ := List.mem_map.mp member
    exact (digit_byte (every d inside)).1
  · rw [decimal,valueFrom_bytes _ every,Nat.ofDigitChars_ten_toDigits]

theorem trim_self {content : List UInt8} (none : ∀ c ∈ content, isTrimChar c = false) :
    trim content = content := by
  have first : content.dropWhile isTrimChar = content :=
    List.dropWhile_eq_self_iff.mpr fun some => by simp [none]
  rw [trim,first]
  exact List.rdropWhile_eq_self_iff.mpr fun some => by simp [none]

theorem isTrimChar_iff (c : UInt8) : isTrimChar c = true ↔ c = 32 ∨ c = 9 := by
  simp [isTrimChar]

theorem plain_digits {content : List UInt8} (digits : ∀ c ∈ content, isDigit c = true) :
    Plain content := by
  have other : ∀ d, isDigit d = false → ∀ c ∈ content, c ≠ d := fun d none c member same =>
    Bool.noConfusion (none.symm.trans (same ▸ digits c member))
  refine ⟨fun c member => ⟨other 0 (by decide) c member,other newline (by decide) c member,
    other carriageReturn (by decide) c member,other comma (by decide) c member⟩,
    trim_self fun c member => Bool.eq_false_iff.mpr fun blank => ?_⟩
  rcases (isTrimChar_iff c).mp blank with same | same
  · exact other 32 (by decide) c member same
  · exact other 9 (by decide) c member same

def isPlain (c : UInt8) : Bool :=
  c != 0 && c != newline && c != carriageReturn && c != comma && !isTrimChar c

theorem plain_of_all {content : List UInt8} (all : content.all isPlain = true) : Plain content := by
  have parts : ∀ c ∈ content, (((c ≠ 0 ∧ c ≠ newline) ∧ c ≠ carriageReturn) ∧ c ≠ comma) ∧
      isTrimChar c = false := fun c member => by
    simpa [isPlain] using List.all_eq_true.mp all c member
  refine ⟨fun c member => ?_,trim_self fun c member => (parts c member).2⟩
  obtain ⟨⟨⟨⟨zero,line⟩,windows⟩,separator⟩,-⟩ := parts c member
  exact ⟨zero,line,windows,separator⟩

theorem plain_columnName (i : Fin 5) : Plain (columnName i) := by
  match i with
  | 0 | 1 | 2 | 3 | 4 => exact plain_of_all rfl

theorem plain_contents {v : Variables} {i : Fin 5} (model : i = modelColumn → Plain v.model) :
    Plain (contents v i) := by
  match i with
  | 0 => exact plain_digits (numeral_decimal v.numGpu).1
  | 1 => exact plain_digits (numeral_decimal v.duration).1
  | 2 => exact plain_digits (numeral_decimal v.submitTime).1
  | 3 => exact plain_digits (numeral_decimal v.iterations).1
  | 4 => exact model rfl

theorem shows_contents (v : Variables) (i : Fin 5) : Shows (contents v i) v i := by
  match i with
  | 0 => exact numeral_decimal v.numGpu
  | 1 => exact numeral_decimal v.duration
  | 2 => exact numeral_decimal v.submitTime
  | 3 => exact numeral_decimal v.iterations
  | 4 => exact rfl

theorem trim_pad {before content after : List UInt8} (tight : trim content = content)
    (blankBefore : ∀ c ∈ before, isTrimChar c = true)
    (blankAfter : ∀ c ∈ after, isTrimChar c = true) :
    trim (before ++ content ++ after) = content := by
  have shorter := (content.dropWhile_sublist isTrimChar).length_le
  have inner := (List.rdropWhile_prefix isTrimChar (content.dropWhile isTrimChar)).length_le
  change (trim content).length ≤ _ at inner
  rw [tight] at inner
  have first : content.dropWhile isTrimChar = content :=
    (List.dropWhile_suffix isTrimChar).eq_of_length (by omega)
  have last : content.rdropWhile isTrimChar = content := by
    rw [trim,first] at tight
    exact tight
  rw [trim,List.append_assoc,List.dropWhile_append_of_pos blankBefore]
  cases content with
  | nil =>
    rw [List.nil_append,List.dropWhile_eq_nil_iff.mpr blankAfter]
    rfl
  | cons c content =>
    have head : isTrimChar c = false := by
      by_contra blank
      rw [List.dropWhile_cons_of_pos (by simpa using blank)] at first
      have less := (content.dropWhile_sublist isTrimChar).length_le
      rw [first] at less
      simp at less
    rw [List.cons_append,List.dropWhile_cons_of_neg (by simp [head]),← List.cons_append]
    have reversed : ∀ c ∈ after.reverse, isTrimChar c = true := by simpa using blankAfter
    rw [List.rdropWhile,List.reverse_append,List.dropWhile_append_of_pos reversed]
    exact last

end JobTrace

namespace Layout

variable {layout : Layout} {contents : Fin 5 → List UInt8}
  (plain : ∀ i ∈ layout.order, Plain (contents i))
include plain

theorem cell_free {i : Fin 5} (member : i ∈ layout.order) (k : Nat) :
    ∀ c ∈ layout.cell k contents i,
      c ≠ 0 ∧ c ≠ newline ∧ c ≠ carriageReturn ∧ c ≠ comma := by
  have blank : ∀ c, isTrimChar c = true →
      c ≠ 0 ∧ c ≠ newline ∧ c ≠ carriageReturn ∧ c ≠ comma := by
    intro c blank
    rcases (JobTrace.isTrimChar_iff c).mp blank with rfl | rfl <;> decide
  intro c inside
  rcases List.mem_append.mp inside with front | back
  · rcases List.mem_append.mp front with first | middle
    · exact blank c (layout.blankBefore k i c first)
    · exact (plain i member).free c middle
  · exact blank c (layout.blankAfter k i c back)

theorem columnsOf_cells (k : Nat) :
    columnsOf (layout.cells k contents) = layout.order.map contents := by
  have free : ∀ cell ∈ layout.order.map (layout.cell k contents), comma ∉ cell := by
    intro cell member inside
    obtain ⟨i,present,rfl⟩ := List.mem_map.mp member
    exact (cell_free plain present k comma inside).2.2.2 rfl
  have some : layout.order.map (layout.cell k contents) ≠ [] := by simp [layout.nonempty]
  rw [columnsOf,cells,List.splitOn_intercalate comma free some,List.map_map]
  refine List.map_congr_left fun i member => ?_
  exact JobTrace.trim_pad (plain i member).tight (layout.blankBefore k i) (layout.blankAfter k i)

theorem cells_free (k : Nat) : ∀ c ∈ layout.cells k contents,
    c ≠ 0 ∧ c ≠ newline ∧ c ≠ carriageReturn := by
  intro c member
  rcases mem_intercalate member with rfl | ⟨cell,inside,found⟩
  · decide
  · obtain ⟨i,present,rfl⟩ := List.mem_map.mp inside
    obtain ⟨zero,line,windows,-⟩ := cell_free plain present k c found
    exact ⟨zero,line,windows⟩

theorem text_line (k : Nat) : text (layout.line k contents) = layout.cells k contents := by
  have free := cells_free plain k
  have none : (layout.cells k contents).takeWhile (· ≠ 0) = layout.cells k contents :=
    List.takeWhile_eq_self_iff.mpr fun c member => decide_eq_true (free c member).1
  rw [text,line]
  by_cases windows : layout.windows k
  · rw [if_pos windows,List.getLast?_concat,if_pos rfl,List.dropLast_concat,none]
  · rw [if_neg windows,List.append_nil]
    have last : (layout.cells k contents).getLast? ≠ some carriageReturn := fun same =>
      (free _ (List.mem_of_getLast? same)).2.2 rfl
    rw [if_neg last,none]

theorem newline_free (k : Nat) : newline ∉ layout.line k contents := by
  intro member
  rcases List.mem_append.mp member with inside | last
  · exact (cells_free plain k newline inside).2.1 rfl
  · split at last
    · exact absurd (List.mem_singleton.mp last) (by decide)
    · exact List.not_mem_nil last

omit plain in
theorem unmarked (k : Nat) (rest : List UInt8) :
    ¬[0xEF,0xBB,0xBF] <+: layout.cells k JobTrace.columnName ++ rest := by
  have other : ∀ c ∈ layout.cells k JobTrace.columnName, c ≠ 0xEF := by
    have names : ∀ i, (JobTrace.columnName i).all (· != 0xEF) = true := by
      intro i
      match i with
      | 0 | 1 | 2 | 3 | 4 => rfl
    have blank : ∀ c, isTrimChar c = true → c ≠ 0xEF := by
      intro c blank
      rcases (JobTrace.isTrimChar_iff c).mp blank with rfl | rfl <;> decide
    intro c member
    rcases mem_intercalate member with rfl | ⟨cell,inside,found⟩
    · decide
    · obtain ⟨i,-,rfl⟩ := List.mem_map.mp inside
      rcases List.mem_append.mp found with front | back
      · rcases List.mem_append.mp front with first | middle
        · exact blank c (layout.blankBefore k i c first)
        · simpa using List.all_eq_true.mp (names i) c middle
      · exact blank c (layout.blankAfter k i c back)
  have columns : columnsOf (layout.cells k JobTrace.columnName) =
      layout.order.map JobTrace.columnName :=
    columnsOf_cells (fun i _ => JobTrace.plain_columnName i) k
  cases begins : layout.cells k JobTrace.columnName with
  | nil =>
    rw [begins] at columns
    obtain ⟨i,-,-,name,-⟩ := List.map_eq_cons_iff.mp
      (show layout.order.map JobTrace.columnName = [] :: [] from columns.symm)
    have named : ∀ i, JobTrace.columnName i ≠ [] := by decide
    exact absurd name (named i)
  | cons c cells =>
    intro mark
    have first := (List.cons_prefix_cons.mp mark).1
    exact other c (begins ▸ List.mem_cons_self) first.symm

omit plain

/-- The names of the models can stand in the cells for them, if there are any. -/
def Writable (layout : Layout) (values : List Variables) : Prop :=
  ∀ v ∈ values, JobTrace.modelColumn ∈ layout.order → Plain v.model

variable {values : List Variables} (writable : layout.Writable values)
include writable

theorem plain_row {v : Variables} (member : v ∈ values) :
    ∀ i ∈ layout.order, Plain (JobTrace.contents v i) := fun _ present =>
  JobTrace.plain_contents fun model => writable v member (model ▸ present)

theorem lines_file : Lines.lines newline (withoutMark (layout.file values)) = layout.lines values := by
  have free : ∀ line ∈ layout.lines values, newline ∉ line := by
    intro line member
    rcases List.mem_cons.mp member with rfl | row
    · exact newline_free (fun i _ => JobTrace.plain_columnName i) 0
    · obtain ⟨⟨v,k⟩,inside,rfl⟩ := List.mem_map.mp row
      exact newline_free (plain_row writable (List.fst_mem_of_mem_zipIdx inside)) k
  have body : withoutMark (layout.file values) =
      (layout.lines values).flatMap (· ++ [newline]) := by
    have none : ¬[0xEF,0xBB,0xBF] <+: (layout.lines values).flatMap (· ++ [newline]) := by
      simp only [lines,line,List.flatMap_cons,List.append_assoc]
      exact unmarked 0 _
    rw [withoutMark,file]
    by_cases marked : layout.mark
    · rw [if_pos marked,if_pos (List.prefix_append _ _)]
      rfl
    · rw [if_neg marked,List.nil_append,if_neg none]
  rw [body]
  exact lines_flatMap free

theorem text_lines : (layout.lines values).map text =
    layout.cells 0 JobTrace.columnName ::
      (values.zipIdx 1).map fun (v,k) => layout.cells k (JobTrace.contents v) := by
  rw [lines,List.map_cons,text_line (fun i _ => JobTrace.plain_columnName i),List.map_map]
  refine congrArg _ (List.map_congr_left fun row inside => ?_)
  exact text_line (plain_row writable (List.fst_mem_of_mem_zipIdx inside)) row.2

theorem reads_row (initial : Variables) {v : Variables} (member : v ∈ values) (k : Nat) :
    JobTrace.Reads layout.order initial (layout.cells k (JobTrace.contents v))
      (layout.merge initial v) := by
  have columns := columnsOf_cells (plain_row writable member) k
  refine ⟨by rw [columns,List.length_map],fun i cell inside => ?_,fun i missing => ?_⟩
  · have pairs := List.zip_map' (f := id) (g := JobTrace.contents v) (l := layout.order)
    rw [List.map_id] at pairs
    rw [columns,pairs] at inside
    obtain ⟨j,present,same⟩ := List.mem_map.mp inside
    cases same
    have shown := JobTrace.shows_contents v j
    match j with
    | 0 | 1 | 2 | 3 | 4 => simpa only [JobTrace.Shows,merge,id_eq,if_pos present] using shown
  · match i with
    | 0 | 1 | 2 | 3 | 4 => exact if_neg missing

end Layout

namespace JobTrace

/-- A trace written in any layout and read through the blocks, whenever the thread gets to run, is
loaded as the jobs of its first rows. -/
theorem trace_round_trip (layout : Layout) (settings : LoadSettings) (initial : Variables)
    {blockLen : Nat} {memory : Nat → UInt8} {fileName : List UInt8} {values : List Variables}
    {s : Reading} {outcome : Except LineLengthLimitExceeded Unit} (two : 2 ≤ blockLen)
    (writable : layout.Writable values)
    (short : ∀ line ∈ layout.lines values, line.length < blockLen)
    (run : Run (Reading.step blockLen) anyStep
      (.start blockLen memory fileName (layout.file values)) s)
    (ended : s.outcome = some outcome) :
    loadJobs settings initial (fileName.take maxFileNameLength) outcome s.lines =
      .ok ((values.take settings.maxJobs.toNat).map fun v =>
        job settings (layout.merge initial v)) := by
  obtain ⟨-,all,-⟩ := lines_of_file two run
  obtain ⟨returned,rfl⟩ := all outcome ended
  have found := Layout.lines_file writable
  have whole : readable blockLen (layout.file values) = layout.lines values := by
    rw [readable,found]
    exact List.takeWhile_eq_self_iff.mpr fun line member => decide_eq_true (short line member)
  have fine : verdict blockLen fileName (layout.file values) = .ok () := by
    rw [verdict,whole,found,if_pos rfl]
  rw [returned,whole,fine,Layout.text_lines writable]
  refine (loadJobs_iff ..).mpr ⟨_,_,layout.order,
    (values.take (settings.maxJobs.toNat + 1)).map (layout.merge initial),rfl,
    Layout.columnsOf_cells (fun i _ => plain_columnName i) 0,layout.once,?_,?_,fun _ => rfl⟩
  · have rows : values.take (settings.maxJobs.toNat + 1) =
        ((values.zipIdx 1).take (settings.maxJobs.toNat + 1)).map Prod.fst := by
      rw [List.map_take,List.zipIdx_map_fst]
    rw [rows,List.map_map,← List.map_take,List.forall₂_map_left_iff,List.forall₂_map_right_iff,
      List.forall₂_same]
    intro row inside
    have member := List.fst_mem_of_mem_zipIdx (List.mem_of_mem_take inside)
    exact Layout.reads_row writable initial member row.2
  · rw [← List.map_take,List.take_take,Nat.min_eq_left (Nat.le_succ _),List.map_map]
    rfl

def beforeNumGpu (_ : Nat) (i : Fin 5) : List UInt8 := if i = numGpuColumn then [32] else []

theorem beforeNumGpu_blank (line : Nat) (i : Fin 5) :
    ∀ c ∈ beforeNumGpu line i, isTrimChar c = true := by
  unfold beforeNumGpu
  split
  · simp [isTrimChar]
  · simp

def modelAndNumGpu : Layout where
  order := [modelColumn,numGpuColumn]
  once := by decide
  nonempty := List.cons_ne_nil _ _
  before := beforeNumGpu
  after := fun _ _ => []
  blankBefore := beforeNumGpu_blank
  blankAfter := fun _ _ _ member => absurd member List.not_mem_nil
  windows := fun _ => true
  mark := true

def twoRows : List Variables :=
  [{ numGpu := 8, duration := 0, submitTime := 0, model := ascii "vgg16" },
    { numGpu := 4, duration := 0, submitTime := 0, model := ascii "alexnet" }]

/-- Both rows, read in blocks of sixteen bytes into variables that hold a second and no
iterations. -/
theorem trace_round_trip_two : ∃ s outcome,
    Run (Reading.step 16) anyStep (.start 16 (fun _ => 0) [] (modelAndNumGpu.file twoRows)) s ∧
      s.outcome = some outcome ∧
      loadJobs { shrinkIterations := id, arrival := UInt32.toUInt64 }
        { numGpu := 0, duration := 0, submitTime := 1 } [] outcome s.lines =
        .ok [{ submitTime := 1, model := ascii "vgg16", iterations := 1, gpu := 8 },
          { submitTime := 1, model := ascii "alexnet", iterations := 1, gpu := 4 }] := by
  have ends : (exec (Reading.step 16) anyStep [.thread,.caller,.caller,.caller,.thread,.caller]
      (.start 16 (fun _ => 0) [] (modelAndNumGpu.file twoRows))).map Reading.outcome =
      some (some (.ok ())) := by rfl
  obtain ⟨s,run,ended⟩ := exists_run_of_exec ends
  have writable : modelAndNumGpu.Writable twoRows := by
    intro v member _
    rcases List.mem_pair.mp member with rfl | rfl
    · exact plain_of_all rfl
    · exact plain_of_all rfl
  refine ⟨s,.ok (),run,ended,?_⟩
  exact trace_round_trip modelAndNumGpu { shrinkIterations := id, arrival := UInt32.toUInt64 }
    { numGpu := 0, duration := 0, submitTime := 1 } (by decide) writable (by decide) run ended

end JobTrace

end CloudSim
