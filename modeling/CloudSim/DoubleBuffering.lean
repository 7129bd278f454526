import CloudSim.LineReader

/-! The blocks of the line reader hold the unread part of the file between them, whenever the
reading thread gets to run. -/
namespace CloudSim.LineReader

open Runs Blocks Lines

/-- The bytes behind the second block, from the third block and from what is left of the file. -/
inductive Supply (blockLen : Nat) (r : LineReader) : List UInt8 → Prop
  /-- The file fits into two blocks. -/
  | closed (reader : r.reader = {}) : Supply blockLen r []
  | asked (source : List UInt8)
      (reader : r.reader = ⟨some source,2*blockLen,some blockLen,none,false⟩) :
      Supply blockLen r source
  | arrived (source : List UInt8) (count : Nat)
      (reader : r.reader = ⟨some source,2*blockLen,none,some count,count == 0⟩)
      (fits : count ≤ blockLen) (last : count < blockLen → source = []) :
      Supply blockLen r (block r.buffer (2*blockLen) count ++ source)
  /-- A block is asked for that no thread will read, and nobody will wait for it. -/
  | exhausted (reader : r.reader = ⟨some [],2*blockLen,some blockLen,none,true⟩)
      (low : r.dataEnd ≤ blockLen ∨ r.dataBegin = r.dataEnd) : Supply blockLen r []

/-- `rest` is the unread part of the file. -/
structure Holds (blockLen : Nat) (rest : List UInt8) (r : LineReader) : Prop where
  ordered : r.dataBegin ≤ r.dataEnd
  within : r.dataBegin < 2*blockLen
  bounded : r.dataEnd ≤ 2*blockLen
  supply : ∃ behind, Supply blockLen r behind ∧
    rest = block r.buffer r.dataBegin (r.dataEnd - r.dataBegin) ++ behind ∧
    (r.dataEnd < 2*blockLen → behind = [])

variable {blockLen : Nat} {rest file : List UInt8} {r next : LineReader}

/-- A UTF-8 byte order mark is not part of the text. -/
def withoutMark (file : List UInt8) : List UInt8 :=
  if [0xEF,0xBB,0xBF] <+: file then file.drop 3 else file

theorem mark_iff (memory : Nat → UInt8) (first : List UInt8) :
    (3 ≤ first.length ∧ store memory 0 first 0 = 0xEF ∧ store memory 0 first 1 = 0xBB ∧
      store memory 0 first 2 = 0xBF) ↔ [0xEF,0xBB,0xBF] <+: first := by
  match first with
  | [] => simp
  | [_] => simp [List.cons_prefix_cons]
  | [_,_] => simp [List.cons_prefix_cons]
  | _ :: _ :: _ :: _ => simp [store,List.cons_prefix_cons,eq_comm]

theorem prefix_take_iff {mark : List UInt8} (file : List UInt8) {n : Nat}
    (short : mark.length ≤ n) :
    mark <+: file.take n ↔ mark <+: file := by
  rw [List.prefix_take_iff]
  exact and_iff_left short

theorem init_dataBegin (memory : Nat → UInt8) (fileName file : List UInt8) (two : 2 ≤ blockLen) :
    (init blockLen memory fileName file).dataBegin =
      if [0xEF,0xBB,0xBF] <+: file then 3 else 0 := by
  have marked := (mark_iff memory (file.take (2*blockLen))).trans
    (prefix_take_iff file (show 3 ≤ 2*blockLen by omega))
  simp only [init,marked]

theorem init_holds (memory : Nat → UInt8) (fileName file : List UInt8) (two : 2 ≤ blockLen) :
    Holds blockLen (withoutMark file) (init blockLen memory fileName file) := by
  have begins := init_dataBegin memory fileName file two
  have length := List.length_take (i := 2*blockLen) (l := file)
  have inside : (init blockLen memory fileName file).dataBegin ≤
      (file.take (2*blockLen)).length := by
    rw [begins,length]
    split
    · rename_i marked
      have := marked.length_le
      simp only [List.length_cons,List.length_nil] at this
      omega
    · exact Nat.zero_le _
  have remains : withoutMark file = (file.take (2*blockLen)).drop
      (init blockLen memory fileName file).dataBegin ++ file.drop (2*blockLen) := by
    rw [← List.drop_append_of_le_length inside,List.take_append_drop,begins,withoutMark]
    split <;> rfl
  have stored : block (init blockLen memory fileName file).buffer
      (init blockLen memory fileName file).dataBegin
      ((file.take (2*blockLen)).length - (init blockLen memory fileName file).dataBegin) =
      (file.take (2*blockLen)).drop (init blockLen memory fileName file).dataBegin := by
    have whole := block_store (m := memory) 0 (file.take (2*blockLen))
    rw [← Nat.add_sub_cancel' inside,block_add,Nat.zero_add] at whole
    have dropped := congrArg (List.drop (init blockLen memory fileName file).dataBegin) whole
    rwa [List.drop_left' (length_block _ _ _)] at dropped
  refine ⟨inside,?_,?_,file.drop (2*blockLen),?_,?_,?_⟩
  · rw [begins]; split <;> omega
  · change (file.take (2*blockLen)).length ≤ _
    omega
  · by_cases filled : (file.take (2*blockLen)).length = 2*blockLen
    · exact .asked _ (by simp only [init,if_pos filled]; rfl)
    · rw [List.drop_eq_nil_of_le (by omega)]
      exact .closed (if_neg filled)
  · rw [remains,← stored]
    rfl
  · intro short
    change (file.take (2*blockLen)).length < _ at short
    exact List.drop_eq_nil_of_le (by omega)

/-- The reader after the thread has read a block. -/
def received (blockLen : Nat) (r : LineReader) (source : List UInt8) : LineReader :=
  { r with
    buffer := store r.buffer (2*blockLen) (source.take blockLen)
    reader := ⟨some (source.drop blockLen),2*blockLen,none,some (source.take blockLen).length,
      (source.take blockLen).length == 0⟩ }

theorem work_asked {source : List UInt8}
    (reader : r.reader = ⟨some source,2*blockLen,some blockLen,none,false⟩) :
    work r = some (received blockLen r source) := by
  simp [work,AsynchronousReader.work,reader,received]

theorem work_cases {behind : List UInt8} (supply : Supply blockLen r behind)
    (worked : work r = some next) :
    r.reader = ⟨some behind,2*blockLen,some blockLen,none,false⟩ ∧
      next = received blockLen r behind := by
  cases supply with
  | asked source reader =>
    rw [work_asked reader] at worked
    exact ⟨reader,(Option.some.inj worked).symm⟩
  | closed reader => simp [work,AsynchronousReader.work,reader] at worked
  | arrived source count reader => simp [work,AsynchronousReader.work,reader] at worked
  | exhausted reader => simp [work,AsynchronousReader.work,reader] at worked

theorem received_supply (source : List UInt8) :
    Supply blockLen (received blockLen r source) source := by
  have got : block (received blockLen r source).buffer (2*blockLen)
      (source.take blockLen).length = source.take blockLen := block_store _ _
  have last : (source.take blockLen).length < blockLen → source.drop blockLen = [] := by
    rw [List.length_take]
    exact fun short => List.drop_eq_nil_of_le (by omega)
  have arrived : Supply blockLen (received blockLen r source) _ :=
    .arrived (source.drop blockLen) _ rfl (List.length_take_le _ _) last
  rwa [got,List.take_append_drop] at arrived

theorem work_holds (holds : Holds blockLen rest r) (worked : work r = some next) :
    Holds blockLen rest next := by
  obtain ⟨behind,supply,parts,full⟩ := holds.supply
  obtain ⟨-,rfl⟩ := work_cases supply worked
  refine ⟨holds.ordered,holds.within,holds.bounded,behind,received_supply behind,?_,full⟩
  have untouched : block (received blockLen r behind).buffer r.dataBegin
      (r.dataEnd - r.dataBegin) = block r.buffer r.dataBegin (r.dataEnd - r.dataBegin) :=
    block_store_below _ (by have := holds.ordered; have := holds.bounded; omega)
  rw [parts,← untouched]
  rfl

/-- Unread bytes of the file are in the first two blocks, unless none are left. -/
theorem rest_nil_iff (holds : Holds blockLen rest r) : rest = [] ↔ r.dataBegin = r.dataEnd := by
  obtain ⟨behind,-,parts,full⟩ := holds.supply
  have ordered := holds.ordered
  have within := holds.within
  constructor
  · intro none
    have empty := congrArg List.length (parts.symm.trans none)
    simp only [List.length_append,length_block,List.length_nil] at empty
    omega
  · intro same
    rw [parts,full (by omega),same]
    simp

theorem block_front (buffer : Nat → UInt8) {start stop : Nat} (second : blockLen ≤ start)
    (ordered : start ≤ stop) (bounded : stop ≤ 2*blockLen) :
    block (memcpy buffer 0 blockLen blockLen) (start - blockLen)
      (stop - blockLen - (start - blockLen)) = block buffer start (stop - start) := by
  have moved : block (memcpy buffer 0 blockLen blockLen) (0 + (start - blockLen)) (stop - start) =
      block buffer (blockLen + (start - blockLen)) (stop - start) := block_memcpy (by omega)
  rw [Nat.zero_add,Nat.add_sub_cancel' second] at moved
  rw [← moved]
  congr 1
  omega

/-- The reader after its second block and a third one of `count` bytes have moved down. -/
def movedDown (blockLen : Nat) (r : LineReader) (count : Nat) : LineReader :=
  { r with
    buffer := memcpy (memcpy r.buffer 0 blockLen blockLen) blockLen (2*blockLen) blockLen
    dataBegin := r.dataBegin - blockLen
    dataEnd := r.dataEnd - blockLen + count
    reader := r.reader.startRead (2*blockLen) blockLen }

theorem block_movedDown {count : Nat} (second : blockLen ≤ r.dataBegin)
    (ordered : r.dataBegin ≤ r.dataEnd) (bounded : r.dataEnd ≤ 2*blockLen)
    (fits : count ≤ blockLen) (full : r.dataEnd < 2*blockLen → count = 0) :
    block (movedDown blockLen r count).buffer (movedDown blockLen r count).dataBegin
      ((movedDown blockLen r count).dataEnd - (movedDown blockLen r count).dataBegin) =
      block r.buffer r.dataBegin (r.dataEnd - r.dataBegin) ++
        block r.buffer (2*blockLen) count := by
  have parts : r.dataEnd - blockLen + count - (r.dataBegin - blockLen) =
      (r.dataEnd - blockLen - (r.dataBegin - blockLen)) + count := by omega
  change block (memcpy (memcpy r.buffer 0 blockLen blockLen) blockLen (2*blockLen) blockLen)
    (r.dataBegin - blockLen) (r.dataEnd - blockLen + count - (r.dataBegin - blockLen)) = _
  rw [parts,block_add,block_memcpy_below _ _ (by omega),block_front _ second ordered bounded]
  congr 1
  by_cases filled : r.dataEnd = 2*blockLen
  · have place : r.dataBegin - blockLen + (r.dataEnd - blockLen - (r.dataBegin - blockLen)) =
        blockLen + 0 := by omega
    rw [place,block_memcpy (by omega)]
    exact block_memcpy_above _ _ (by omega)
  · rw [full (by omega)]
    rfl

theorem shift_holds (holds : Holds blockLen rest r) (more : r.dataBegin ≠ r.dataEnd)
    (shifted : shift blockLen r = some next) :
    Holds blockLen rest next ∧ next.dataBegin < blockLen ∧ next.dataBegin ≠ next.dataEnd ∧
      next.fileLine = r.fileLine ∧ next.fileName = r.fileName := by
  obtain ⟨behind,supply,parts,full⟩ := holds.supply
  have ordered := holds.ordered
  have within := holds.within
  have bounded := holds.bounded
  unfold shift at shifted
  split at shifted
  · rename_i second
    cases supply with
    | closed reader =>
      simp only [AsynchronousReader.isValid,reader,Option.isSome_none,Bool.false_eq_true,if_false,
        Option.some.injEq] at shifted
      subst shifted
      refine ⟨⟨Nat.sub_le_sub_right ordered _,?_,?_,[],.closed rfl,?_,fun _ => rfl⟩,
        ?_,?_,rfl,rfl⟩
      · change r.dataBegin - blockLen < _
        omega
      · change r.dataEnd - blockLen ≤ _
        omega
      · rw [parts]
        exact congrArg (· ++ []) (block_front r.buffer second ordered bounded).symm
      · change r.dataBegin - blockLen < _
        omega
      · change r.dataBegin - blockLen ≠ r.dataEnd - blockLen
        omega
    | asked source reader =>
      simp [AsynchronousReader.isValid,AsynchronousReader.finishRead,reader] at shifted
    | arrived source count reader fits last =>
      simp only [AsynchronousReader.isValid,AsynchronousReader.finishRead,reader,
        Option.isSome_some,if_true,Option.map_some,Option.some.injEq] at shifted
      have down : next = movedDown blockLen r count := by
        rw [← shifted,movedDown,reader]
      subst down
      have counted : r.dataEnd < 2*blockLen → count = 0 ∧ source = [] := fun short => by
        have empty := congrArg List.length (full short)
        simp only [List.length_append,length_block,List.length_nil] at empty
        exact ⟨by omega,List.length_eq_zero_iff.mp (by omega)⟩
      have asks : (movedDown blockLen r count).reader =
          ⟨some source,2*blockLen,some blockLen,none,count == 0⟩ := by
        simp only [movedDown,reader,AsynchronousReader.startRead]
      have supply : Supply blockLen (movedDown blockLen r count) source := by
        by_cases zero : count = 0
        · subst zero
          obtain rfl : source = [] := last (by omega)
          refine .exhausted asks (Or.inl ?_)
          change r.dataEnd - blockLen + 0 ≤ blockLen
          omega
        · rw [beq_eq_false_iff_ne.mpr zero] at asks
          exact .asked source asks
      refine ⟨⟨?_,?_,?_,source,supply,?_,?_⟩,?_,?_,rfl,rfl⟩
      · change r.dataBegin - blockLen ≤ r.dataEnd - blockLen + count
        omega
      · change r.dataBegin - blockLen < _
        omega
      · change r.dataEnd - blockLen + count ≤ _
        omega
      · rw [parts,block_movedDown second ordered bounded fits fun short => (counted short).1,
          List.append_assoc]
      · intro short
        change r.dataEnd - blockLen + count < _ at short
        by_cases filled : r.dataEnd = 2*blockLen
        · exact last (by omega)
        · exact (counted (by omega)).2
      · change r.dataBegin - blockLen < _
        omega
      · change r.dataBegin - blockLen ≠ r.dataEnd - blockLen + count
        omega
    | exhausted reader low => omega
  · rename_i first
    cases shifted
    exact ⟨holds,by omega,more,rfl,rfl⟩

/-- A call that waits does so for a block that the thread is about to read. -/
theorem shift_waits (holds : Holds blockLen rest r) (more : r.dataBegin ≠ r.dataEnd)
    (waits : shift blockLen r = none) :
    ∃ next, work r = some next ∧ ∃ shifted, shift blockLen next = some shifted := by
  obtain ⟨behind,supply,-,-⟩ := holds.supply
  have ordered := holds.ordered
  unfold shift at waits
  split at waits
  · rename_i second
    cases supply with
    | closed reader => simp [AsynchronousReader.isValid,reader] at waits
    | asked source reader =>
      refine ⟨received blockLen r behind,work_asked reader,
        movedDown blockLen (received blockLen r behind) (behind.take blockLen).length,?_⟩
      rw [shift,if_pos (show blockLen ≤ (received blockLen r behind).dataBegin from second)]
      rfl
    | arrived source count reader =>
      simp [AsynchronousReader.isValid,AsynchronousReader.finishRead,reader] at waits
    | exhausted reader low => omega
  · cases waits

theorem Supply.transfer {behind : List UInt8} (supply : Supply blockLen r behind)
    (reader : next.reader = r.reader) (third : ∀ i, 2*blockLen ≤ i → next.buffer i = r.buffer i)
    (low : r.dataEnd ≤ blockLen ∨ r.dataBegin = r.dataEnd →
      next.dataEnd ≤ blockLen ∨ next.dataBegin = next.dataEnd) : Supply blockLen next behind := by
  cases supply with
  | closed known => exact .closed (reader.trans known)
  | asked _ known => exact .asked _ (reader.trans known)
  | arrived source count known fits last =>
    have same : block r.buffer (2*blockLen) count = block next.buffer (2*blockLen) count :=
      block_congr fun i _ => (third _ (Nat.le_add_right _ i)).symm
    rw [same]
    exact .arrived source count (reader.trans known) fits last
  | exhausted known below => exact .exhausted (reader.trans known) (low below)

/-- A scan splits the bytes it goes over at the end of the line. -/
theorem block_scan (buffer : Nat → UInt8) (start count : Nat) :
    let window := block buffer start count
    let length := (window.takeWhile (· ≠ newline)).length
    length ≤ count ∧ block buffer start length = window.takeWhile (· ≠ newline) ∧
      block buffer (start + length) (count - length) = window.dropWhile (· ≠ newline) := by
  intro window length
  have shorter : length ≤ count :=
    (window.takeWhile_sublist (· ≠ newline)).length_le.trans_eq (length_block buffer start count)
  have whole : block buffer start length ++ block buffer (start + length) (count - length) =
      window.takeWhile (· ≠ newline) ++ window.dropWhile (· ≠ newline) := by
    rw [← block_add,Nat.add_sub_cancel' shorter,List.takeWhile_append_dropWhile]
  exact ⟨shorter,List.append_inj whole (length_block _ _ _)⟩

theorem scan_newline {buffer : Nat → UInt8} {start count : Nat}
    (early : ((block buffer start count).takeWhile (· ≠ newline)).length < count) :
    buffer (start + ((block buffer start count).takeWhile (· ≠ newline)).length) = newline := by
  obtain ⟨-,-,stops⟩ := block_scan buffer start count
  obtain ⟨left,counted⟩ := Nat.exists_eq_add_one_of_ne_zero (Nat.sub_ne_zero_of_lt early)
  rw [counted,Nat.add_comm left,block_add] at stops
  have head := List.head?_dropWhile_not (· ≠ newline) (block buffer start count)
  rw [← stops] at head
  simpa [block] using head

def scanned (r : LineReader) : Nat :=
  ((block r.buffer r.dataBegin (r.dataEnd - r.dataBegin)).takeWhile (· ≠ newline)).length

/-- The reader once a line of `length` bytes is cut off. -/
def cutOff (r : LineReader) (length : Nat) : LineReader :=
  { r with
    buffer :=
      if length ≠ 0 ∧ r.buffer (r.dataBegin + length - 1) = carriageReturn then
        store (store r.buffer (r.dataBegin + length) [0]) (r.dataBegin + length - 1) [0]
      else store r.buffer (r.dataBegin + length) [0]
    dataBegin := r.dataBegin + length + 1
    dataEnd := if length < r.dataEnd - r.dataBegin then r.dataEnd else r.dataEnd + 1 }

theorem takeLine_eq (blockLen : Nat) (ordered : r.dataBegin ≤ r.dataEnd) :
    takeLine blockLen r =
      if scanned r < blockLen then
        (.ok (text (block r.buffer r.dataBegin (scanned r))),cutOff r (scanned r))
      else (.error { fileName := r.fileName, fileLine := r.fileLine.toInt32 },r) := by
  obtain ⟨shorter,-,-⟩ := block_scan r.buffer r.dataBegin (r.dataEnd - r.dataBegin)
  change scanned r ≤ _ at shorter
  have ends : findLineEnd r.buffer r.dataBegin (r.dataEnd - r.dataBegin) =
      r.dataBegin + scanned r := findLineEnd_eq _ _ _
  have stops : (r.dataBegin + scanned r ≠ r.dataEnd ∧
      r.buffer (r.dataBegin + scanned r) = newline) ↔ scanned r < r.dataEnd - r.dataBegin :=
    ⟨fun both => by omega,fun early => ⟨by omega,scan_newline early⟩⟩
  have returns : (r.dataBegin + scanned r ≠ r.dataBegin ∧
      store r.buffer (r.dataBegin + scanned r) [0] (r.dataBegin + scanned r - 1) =
        carriageReturn) ↔
      (scanned r ≠ 0 ∧ r.buffer (r.dataBegin + scanned r - 1) = carriageReturn) := by
    by_cases none : scanned r = 0
    · simp [none]
    · rw [store_below _ (show r.dataBegin + scanned r - 1 < r.dataBegin + scanned r by omega)]
      exact and_congr_left' ⟨fun _ => none,fun _ => by omega⟩
  have string := cString_cut r.buffer r.dataBegin (scanned r)
  unfold takeLine
  simp only [ends,stops,returns,Nat.add_sub_cancel_left]
  by_cases fits : scanned r < blockLen
  · rw [if_neg (by omega),if_pos fits,string]
    rfl
  · rw [if_pos (by omega),if_neg fits]

theorem cutOff_other {i length : Nat} (behind : r.dataBegin + length < i) :
    (cutOff r length).buffer i = r.buffer i := by
  have after : r.dataBegin + length + ([0] : List UInt8).length ≤ i := behind
  simp only [cutOff]
  split
  · have far : r.dataBegin + length - 1 + ([0] : List UInt8).length ≤ i := by
      change _ + 1 ≤ i
      omega
    rw [store_above far,store_above after]
  · exact store_above after

/-- The scan finds the first line of what is unread, when it finds a line short enough. -/
theorem takeWhile_rest (holds : Holds blockLen rest r) (first : r.dataBegin < blockLen) :
    (scanned r < blockLen ↔ (rest.takeWhile (· ≠ newline)).length < blockLen) ∧
      (scanned r < blockLen →
        rest.takeWhile (· ≠ newline) = block r.buffer r.dataBegin (scanned r)) := by
  obtain ⟨behind,-,parts,full⟩ := holds.supply
  obtain ⟨-,starts,-⟩ := block_scan r.buffer r.dataBegin (r.dataEnd - r.dataBegin)
  have bounded := holds.bounded
  change block r.buffer r.dataBegin (scanned r) = _ at starts
  rw [parts,List.takeWhile_append,length_block]
  split
  · rename_i whole
    have size : scanned r = r.dataEnd - r.dataBegin := whole
    by_cases filled : r.dataEnd = 2*blockLen
    · simp only [List.length_append,length_block]
      exact ⟨by omega,fun short => by omega⟩
    · rw [full (by omega),List.takeWhile_nil,List.append_nil,length_block,size]
      exact ⟨Iff.rfl,fun _ => rfl⟩
  · exact ⟨Iff.rfl,fun _ => starts.symm⟩

theorem cutOff_holds (holds : Holds blockLen rest r) (first : r.dataBegin < blockLen)
    (short : scanned r < blockLen) :
    Holds blockLen (afterLine newline rest) (cutOff r (scanned r)) := by
  obtain ⟨behind,supply,parts,full⟩ := holds.supply
  obtain ⟨shorter,-,stops⟩ := block_scan r.buffer r.dataBegin (r.dataEnd - r.dataBegin)
  change scanned r ≤ _ at shorter
  change block r.buffer (r.dataBegin + scanned r) (r.dataEnd - r.dataBegin - scanned r) = _ at stops
  have ordered := holds.ordered
  have bounded := holds.bounded
  have moved : ∀ low : r.dataEnd ≤ blockLen ∨ r.dataBegin = r.dataEnd →
      (cutOff r (scanned r)).dataEnd ≤ blockLen ∨
        (cutOff r (scanned r)).dataBegin = (cutOff r (scanned r)).dataEnd,
      Supply blockLen (cutOff r (scanned r)) behind := fun low =>
    supply.transfer rfl (fun i high => cutOff_other (by omega)) low
  by_cases early : scanned r < r.dataEnd - r.dataBegin
  · have stop : (cutOff r (scanned r)).dataEnd = r.dataEnd := if_pos early
    refine ⟨?_,?_,?_,behind,moved ?_,?_,?_⟩
    · rw [stop]
      change r.dataBegin + scanned r + 1 ≤ _
      omega
    · change r.dataBegin + scanned r + 1 < _
      omega
    · rw [stop]
      exact bounded
    · rw [stop]
      rintro (low | same)
      · exact Or.inl low
      · omega
    · have left : r.dataEnd - r.dataBegin - scanned r =
          1 + (r.dataEnd - (r.dataBegin + scanned r + 1)) := by omega
      have later : block (cutOff r (scanned r)).buffer (r.dataBegin + scanned r + 1)
          (r.dataEnd - (r.dataBegin + scanned r + 1)) =
          block r.buffer (r.dataBegin + scanned r + 1)
            (r.dataEnd - (r.dataBegin + scanned r + 1)) :=
        block_congr fun i _ => cutOff_other (by omega)
      rw [left,block_add] at stops
      rw [afterLine,parts,List.dropWhile_append,← stops,stop]
      change _ = block (cutOff r (scanned r)).buffer (r.dataBegin + scanned r + 1)
        (r.dataEnd - (r.dataBegin + scanned r + 1)) ++ behind
      rw [later]
      simp [block]
    · rw [stop]
      exact full
  · have stop : (cutOff r (scanned r)).dataEnd = r.dataEnd + 1 := if_neg early
    have size : r.dataEnd = r.dataBegin + scanned r := by omega
    have none : behind = [] := full (by omega)
    have begins : (cutOff r (scanned r)).dataBegin = (cutOff r (scanned r)).dataEnd := by
      rw [stop,size]
      rfl
    have within : (cutOff r (scanned r)).dataBegin < 2*blockLen := by
      change r.dataBegin + scanned r + 1 < _
      omega
    refine ⟨begins.le,within,by omega,behind,moved fun _ => Or.inr begins,?_,fun _ => none⟩
    have noneLeft : r.dataEnd - r.dataBegin - scanned r = 0 := by omega
    rw [noneLeft,block_zero] at stops
    rw [begins,Nat.sub_self,block_zero,afterLine,parts,none,List.append_nil,← stops]
    rfl

theorem Holds.numbered (holds : Holds blockLen rest r) (fileLine : UInt32) :
    Holds blockLen rest { r with fileLine := fileLine } := by
  obtain ⟨behind,supply,parts,full⟩ := holds.supply
  exact ⟨holds.ordered,holds.within,holds.bounded,behind,
    supply.transfer rfl (fun _ _ => rfl) id,parts,full⟩

/-- What a call returns for the first unread line, once it has stopped waiting. -/
theorem nextLine_spec {line : Except LineLengthLimitExceeded (Option (List UInt8))}
    (holds : Holds blockLen rest r) (more : rest ≠ [])
    (called : nextLine blockLen r = some (line,next)) :
    next.fileLine = r.fileLine + 1 ∧ next.fileName = r.fileName ∧
      if (rest.takeWhile (· ≠ newline)).length < blockLen then
        line = .ok (some (text (rest.takeWhile (· ≠ newline)))) ∧
          Holds blockLen (afterLine newline rest) next
      else
        line = .error { fileName := r.fileName, fileLine := (r.fileLine + 1).toInt32 } ∧
          Holds blockLen rest next := by
  have unread : r.dataBegin ≠ r.dataEnd := mt (rest_nil_iff holds).mpr more
  rw [nextLine,if_neg unread] at called
  obtain ⟨shifted,moved,result⟩ := Option.map_eq_some_iff.mp called
  obtain ⟨kept,first,-,number,name⟩ :=
    shift_holds (holds.numbered (r.fileLine + 1)) unread moved
  change shifted.fileLine = r.fileLine + 1 at number
  change shifted.fileName = r.fileName at name
  obtain ⟨fits,same⟩ := takeWhile_rest kept first
  rw [takeLine_eq blockLen kept.ordered] at result
  by_cases short : scanned shifted < blockLen
  · rw [if_pos short] at result
    cases result
    rw [if_pos (fits.mp short),same short]
    exact ⟨number,name,rfl,cutOff_holds kept first short⟩
  · rw [if_neg short] at result
    cases result
    rw [if_neg (mt fits.mpr short),← name,← number]
    exact ⟨rfl,rfl,rfl,kept⟩

theorem nextLine_waits (holds : Holds blockLen rest r) (waits : nextLine blockLen r = none) :
    ∃ next, work r = some next ∧ ∃ result, nextLine blockLen next = some result := by
  by_cases unread : r.dataBegin = r.dataEnd
  · rw [nextLine,if_pos unread] at waits
    cases waits
  · rw [nextLine,if_neg unread,Option.map_eq_none_iff] at waits
    obtain ⟨next,worked,shifted,goes⟩ :=
      shift_waits (holds.numbered (r.fileLine + 1)) unread waits
    obtain ⟨behind,supply,-,-⟩ := (holds.numbered (r.fileLine + 1)).supply
    obtain ⟨asked,rfl⟩ := work_cases supply worked
    refine ⟨received blockLen r behind,work_asked asked,
      ((takeLine blockLen shifted).1.map some,(takeLine blockLen shifted).2),?_⟩
    have same : (received blockLen r behind).dataBegin ≠ (received blockLen r behind).dataEnd :=
      unread
    rw [nextLine,if_neg same]
    exact congrArg (Option.map _) goes

end CloudSim.LineReader
