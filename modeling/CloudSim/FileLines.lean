import CloudSim.DoubleBuffering
import CloudSim.Descent

/-! The lines that a caller gets from a file, in any interleaving with the thread that reads it. -/
namespace CloudSim.LineReader

open Runs Lines

/-- A reader with the lines it has returned, and how the reading ended. -/
structure Reading where
  reader : LineReader
  lines : List (List UInt8) := []
  outcome : Option (Except LineLengthLimitExceeded Unit) := none

inductive Turn where
  | thread | caller
  deriving DecidableEq, Repr

namespace Reading

def start (blockLen : Nat) (memory : Nat → UInt8) (fileName file : List UInt8) : Reading where
  reader := init blockLen memory fileName file

/-- A round of the thread, or one call of `next_line` by a caller who stops at the end of the file
and at an error. -/
def step (blockLen : Nat) : Turn → Reading → Option Reading
  | .thread,s => s.reader.work.map fun reader => { s with reader := reader }
  | .caller,s =>
    if s.outcome.isSome then none
    else (s.reader.nextLine blockLen).map fun
      | (.ok (some line),reader) => { s with reader := reader, lines := s.lines ++ [line] }
      | (.ok none,reader) => { s with reader := reader, outcome := some (.ok ()) }
      | (.error e,reader) => { s with reader := reader, outcome := some (.error e) }

end Reading

/-- The lines before the first that does not fit into a block. -/
def readable (blockLen : Nat) (file : List UInt8) : List (List UInt8) :=
  (lines newline (withoutMark file)).takeWhile (·.length < blockLen)

/-- How the reading of a file ends. -/
def verdict (blockLen : Nat) (fileName file : List UInt8) : Except LineLengthLimitExceeded Unit :=
  if (readable blockLen file).length = (lines newline (withoutMark file)).length then .ok ()
  else .error {
    fileName := fileName.take maxFileNameLength
    fileLine := (UInt32.ofNat ((readable blockLen file).length + 1)).toInt32 }

/-- `taken` are the lines returned so far. -/
structure Standing (blockLen : Nat) (fileName file : List UInt8) (s : Reading)
    (taken : List (List UInt8)) (rest : List UInt8) : Prop where
  holds : Holds blockLen rest s.reader
  split : lines newline (withoutMark file) = taken ++ lines newline rest
  short : ∀ line ∈ taken, line.length < blockLen
  returned : s.lines = taken.map text
  named : s.reader.fileName = fileName.take maxFileNameLength
  counted : s.outcome = none → s.reader.fileLine = UInt32.ofNat taken.length
  ended : ∀ outcome, s.outcome = some outcome →
    (outcome = .ok () ∧ rest = []) ∨
      (outcome = .error {
        fileName := fileName.take maxFileNameLength
        fileLine := (UInt32.ofNat (taken.length + 1)).toInt32 } ∧
      rest ≠ [] ∧ blockLen ≤ (rest.takeWhile (· ≠ newline)).length)

def Reached (blockLen : Nat) (fileName file : List UInt8) (s : Reading) : Prop :=
  ∃ taken rest, Standing blockLen fileName file s taken rest

variable {blockLen : Nat} {fileName file rest : List UInt8} {s t : Reading}
  {taken : List (List UInt8)} {turn : Turn}

theorem start_standing (memory : Nat → UInt8) (fileName file : List UInt8) (two : 2 ≤ blockLen) :
    Standing blockLen fileName file (.start blockLen memory fileName file) [] (withoutMark file) where
  holds := init_holds memory fileName file two
  split := rfl
  short := fun _ none => absurd none List.not_mem_nil
  returned := rfl
  named := rfl
  counted := fun _ => rfl
  ended := fun _ none => nomatch none

/-- The unread bytes, wherever they are. -/
def unread (r : LineReader) : Nat :=
  r.dataEnd - r.dataBegin + (r.reader.readByteCount.getD 0 + (r.reader.byteSource.getD []).length)

/-- The rounds that the thread has to do. -/
def rounds (r : AsynchronousReader) : Nat :=
  if r.desiredByteCount.isSome ∧ r.ended = false then 1 else 0

theorem rounds_le (r : AsynchronousReader) : rounds r ≤ 1 := by
  unfold rounds; split <;> omega

/-- A byte counts more than the round that it may lead to. -/
def effort (s : Reading) : Nat :=
  2*unread s.reader + (if s.outcome = none then 2 else 0) + rounds s.reader.reader

theorem unread_eq {r : LineReader} (holds : Holds blockLen rest r) : unread r = rest.length := by
  obtain ⟨behind,supply,parts,-⟩ := holds.supply
  have size := congrArg List.length parts
  rw [List.length_append,Blocks.length_block] at size
  rw [size,unread]
  cases supply with
  | closed reader => simp [reader]
  | asked source reader => simp [reader]
  | arrived source count reader => simp [reader]
  | exhausted reader => simp [reader]

theorem thread_step (standing : Standing blockLen fileName file s taken rest)
    (stepped : Reading.step blockLen .thread s = some t) :
    Standing blockLen fileName file t taken rest ∧ effort t < effort s := by
  obtain ⟨reader,worked,rfl⟩ := Option.map_eq_some_iff.mp stepped
  have kept := work_holds standing.holds worked
  obtain ⟨behind,supply,-,-⟩ := standing.holds.supply
  obtain ⟨asked,rfl⟩ := work_cases supply worked
  refine ⟨{ standing with holds := kept },?_⟩
  have same : unread (received blockLen s.reader behind) = unread s.reader :=
    (unread_eq kept).trans (unread_eq standing.holds).symm
  have before : rounds s.reader.reader = 1 := by rw [asked]; rfl
  have after : rounds (received blockLen s.reader behind).reader = 0 := rfl
  simp only [effort,same,before,after]
  omega

theorem nextLine_nil {r : LineReader} (holds : Holds blockLen [] r) :
    nextLine blockLen r = some (.ok none,r) := if_pos ((rest_nil_iff holds).mp rfl)

theorem caller_step (standing : Standing blockLen fileName file s taken rest)
    (stepped : Reading.step blockLen .caller s = some t) :
    Reached blockLen fileName file t ∧ effort t < effort s := by
  have open' : s.outcome = none := by
    cases going : s.outcome with
    | some outcome => simp [Reading.step,going] at stepped
    | none => rfl
  simp only [Reading.step,open',Option.isSome_none,Bool.false_eq_true,if_false] at stepped
  obtain ⟨⟨line,next⟩,called,rfl⟩ := Option.map_eq_some_iff.mp stepped
  have asks := rounds_le next.reader
  by_cases read : rest = []
  · subst read
    rw [nextLine_nil standing.holds] at called
    cases called
    refine ⟨⟨taken,[],{ standing with
      counted := fun none => nomatch none
      ended := fun outcome same => Or.inl ⟨(Option.some.inj same).symm,rfl⟩ }⟩,?_⟩
    simp only [effort,open',if_true,reduceCtorEq,if_false]
    omega
  · obtain ⟨number,name,result⟩ := nextLine_spec standing.holds read called
    have before := unread_eq standing.holds
    rw [standing.counted open'] at number
    have counts : UInt32.ofNat taken.length + 1 = UInt32.ofNat (taken.length + 1) := by simp
    rw [counts] at number
    split at result
    · rename_i fits
      obtain ⟨rfl,kept⟩ := result
      have after := unread_eq kept
      have less : (afterLine newline rest).length < rest.length := length_afterLine read
      refine ⟨⟨taken ++ [rest.takeWhile (· ≠ newline)],afterLine newline rest,{
        holds := kept
        split := ?_
        short := ?_
        returned := ?_
        named := name.trans standing.named
        counted := fun _ => number.trans (by simp)
        ended := fun outcome same => ?_ }⟩,?_⟩
      · rw [standing.split,lines_cut read,List.append_assoc]
        rfl
      · rintro line member
        rcases List.mem_append.mp member with old | new
        · exact standing.short line old
        · rw [List.mem_singleton.mp new]
          exact fits
      · rw [standing.returned,List.map_append]
        rfl
      · cases same
      · simp only [effort,open',if_true]
        omega
    · rename_i long
      obtain ⟨rfl,kept⟩ := result
      have after := unread_eq kept
      refine ⟨⟨taken,rest,{ standing with
        holds := kept
        named := name.trans standing.named
        counted := fun none => nomatch none
        ended := fun outcome same => Or.inr ⟨?_,read,Nat.le_of_not_lt long⟩ }⟩,?_⟩
      · rw [← Option.some.inj same,standing.named,standing.counted open',counts]
      · simp only [effort,open',if_true,reduceCtorEq,if_false]
        omega

theorem step_reached (reached : Reached blockLen fileName file s)
    (stepped : Reading.step blockLen turn s = some t) :
    Reached blockLen fileName file t ∧ effort t < effort s := by
  obtain ⟨taken,rest,standing⟩ := reached
  cases turn with
  | thread =>
    obtain ⟨kept,less⟩ := thread_step standing stepped
    exact ⟨⟨taken,rest,kept⟩,less⟩
  | caller => exact caller_step standing stepped

theorem readable_eq (standing : Standing blockLen fileName file s taken rest) :
    readable blockLen file = taken ++ (lines newline rest).takeWhile (·.length < blockLen) := by
  rw [readable,standing.split]
  exact List.takeWhile_append_of_pos fun line member => decide_eq_true (standing.short line member)

theorem ended_verdict (standing : Standing blockLen fileName file s taken rest)
    {outcome : Except LineLengthLimitExceeded Unit} (ended : s.outcome = some outcome) :
    readable blockLen file = taken ∧ outcome = verdict blockLen fileName file := by
  have split := readable_eq standing
  rcases standing.ended outcome ended with ⟨rfl,rfl⟩ | ⟨rfl,more,long⟩
  · have all : readable blockLen file = taken := split.trans (List.append_nil _)
    rw [verdict,all,standing.split]
    simp
  · have all : readable blockLen file = taken := by
      rw [split,lines_cut more,List.takeWhile_cons_of_neg (by simpa using long),List.append_nil]
    have fewer : taken.length ≠ (lines newline (withoutMark file)).length := by
      rw [standing.split,lines_cut more]
      simp
    rw [verdict,all,if_neg fewer]
    exact ⟨rfl,rfl⟩

theorem caller_goes {result : Except LineLengthLimitExceeded (Option (List UInt8)) × LineReader}
    (going : s.outcome = none) (called : nextLine blockLen s.reader = some result) :
    ∃ t, Reading.step blockLen .caller s = some t := by
  apply Option.isSome_iff_exists.mp
  simp [Reading.step,going,called]

/-- A caller gets the lines of the file in order, up to the first that is too long, whenever the
thread reads its blocks; nobody waits for ever. -/
theorem lines_of_file {memory : Nat → UInt8} (two : 2 ≤ blockLen)
    (run : Run (Reading.step blockLen) anyStep (.start blockLen memory fileName file) s) :
    s.lines <+: (readable blockLen file).map text ∧
      (∀ outcome, s.outcome = some outcome →
        s.lines = (readable blockLen file).map text ∧ outcome = verdict blockLen fileName file) ∧
      (s.outcome = none →
        (∃ t, Reading.step blockLen .caller s = some t) ∨
          ∃ t u, Reading.step blockLen .thread s = some t ∧
            Reading.step blockLen .caller t = some u) ∧
      ¬Endless (Reading.step blockLen) anyStep s := by
  have start : Reached blockLen fileName file (.start blockLen memory fileName file) :=
    ⟨[],_,start_standing memory fileName file two⟩
  have reached := run.invariant (fun _ _ _ kept _ stepped => (step_reached kept stepped).1) start
  have ends : ¬Endless (Reading.step blockLen) anyStep s := not_endless wellFounded_lt effort
    (fun _ _ _ kept _ stepped => step_reached kept stepped) reached
  obtain ⟨taken,rest,standing⟩ := reached
  refine ⟨?_,fun outcome ended => ?_,fun going => ?_,ends⟩
  · rw [standing.returned,readable_eq standing,List.map_append]
    exact List.prefix_append _ _
  · obtain ⟨all,verdict⟩ := ended_verdict standing ended
    exact ⟨by rw [standing.returned,all],verdict⟩
  · cases called : nextLine blockLen s.reader with
    | some result => exact Or.inl (caller_goes going called)
    | none =>
      obtain ⟨reader,worked,result,goes⟩ := nextLine_waits standing.holds called
      have turn : Reading.step blockLen .thread s = some { s with reader := reader } := by
        simp [Reading.step,worked]
      obtain ⟨u,stepped⟩ := caller_goes (s := { s with reader := reader }) going goes
      exact Or.inr ⟨_,u,turn,stepped⟩

/-- Three lines through blocks of four bytes, the first behind a byte order mark and the last
without its newline. -/
theorem lines_of_file_three : ∃ s,
    Run (Reading.step 4) anyStep
      (.start 4 (fun _ => 7) [] [0xEF,0xBB,0xBF,65,13,10,66,10,67,68,69]) s ∧
      s.lines = [[65],[66],[67,68,69]] ∧
      .ok () = verdict 4 [] [0xEF,0xBB,0xBF,65,13,10,66,10,67,68,69] := by
  have ends : (exec (Reading.step 4) anyStep [.caller,.thread,.caller,.thread,.caller,.caller]
      (.start 4 (fun _ => 7) [] [0xEF,0xBB,0xBF,65,13,10,66,10,67,68,69])).map
      (fun s => (s.lines,s.outcome)) = some ([[65],[66],[67,68,69]],some (.ok ())) := by rfl
  obtain ⟨s,run,view⟩ := exists_run_of_exec ends
  obtain ⟨returned,ended⟩ := Prod.mk.inj view
  have all := lines_of_file (by decide) run
  exact ⟨s,run,returned,(all.2.1 _ ended).2⟩

end CloudSim.LineReader
