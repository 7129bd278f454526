import CloudSim.CsvReader

/-! Which headers, rows and numbers are accepted, and as what they are read. -/
namespace CloudSim.Csv

/-- The columns of a line without the blanks around them. -/
def columnsOf (line : List UInt8) : List (List UInt8) := (line.splitOn comma).map trim

theorem columnsOf_chop (line : List UInt8) :
    columnsOf line = trim (chopNextColumn line).1 ::
      match (chopNextColumn line).2 with
      | none => []
      | some rest => columnsOf rest := by
  have parts := List.takeWhile_append_dropWhile (p := (· ≠ comma)) (l := line)
  have free : comma ∉ line.takeWhile (· ≠ comma) := fun member => by
    simpa using List.mem_takeWhile_imp member
  cases remains : line.dropWhile (· ≠ comma) with
  | nil =>
    rw [remains,List.append_nil] at parts
    rw [parts] at free
    simp only [chopNextColumn,remains,columnsOf,parts,List.splitOn_eq_singleton free]
    rfl
  | cons c rest =>
    have head := List.head?_dropWhile_not (· ≠ comma) line
    rw [remains] at head
    obtain rfl : c = comma := by simpa using head
    have split := List.splitOn_append_cons_self_of_not_mem free rest
    rw [remains] at parts
    rw [parts] at split
    simp only [chopNextColumn,remains,columnsOf,split,List.map_cons]

theorem columnsOf_ne_nil (line : List UInt8) : columnsOf line ≠ [] := by
  rw [columnsOf_chop]; exact List.cons_ne_nil _ _

variable {n : Nat} {colName : Fin n → List UInt8} {line : List UInt8}

theorem headerColumn_ok (injective : Function.Injective colName) (found : Fin n → Bool)
    (col : List UInt8) (result : Option (Fin n) × (Fin n → Bool)) :
    headerColumn colName false found col = .ok result ↔
      ∃ i, colName i = col ∧ found i = false ∧ result = (some i,Function.update found i true) := by
  unfold headerColumn
  constructor
  · intro ok
    split at ok
    · rename_i i known
      have name : colName i = col := by simpa using List.find?_some known
      by_cases again : found i = true
      · rw [if_pos again] at ok
        cases ok
      · rw [if_neg again] at ok
        exact ⟨i,name,by simpa using again,(Except.ok.inj ok).symm⟩
    · simp at ok
  · rintro ⟨i,name,new,rfl⟩
    cases known : (List.finRange n).find? fun j => colName j = col with
    | none =>
      have none := List.find?_eq_none.mp known i (List.mem_finRange i)
      simp [name] at none
    | some j =>
      have same : colName j = col := by simpa using List.find?_some known
      obtain rfl : j = i := injective (same.trans name.symm)
      simp [new]

theorem found_update (found : Fin n → Bool) (i : Fin n) (order : List (Fin n)) :
    (fun j => Function.update found i true j || decide (j ∈ order)) =
      fun j => found j || decide (j ∈ i :: order) := by
  funext j
  by_cases same : j = i
  · simp [same]
  · simp [same]

theorem new_update (found : Fin n → Bool) (i : Fin n) (order : List (Fin n)) :
    (∀ j ∈ order, Function.update found i true j = false) ↔
      i ∉ order ∧ ∀ j ∈ order, found j = false := by
  constructor
  · intro new
    have other : i ∉ order := fun member => by simpa using new i member
    refine ⟨other,fun j member => ?_⟩
    have differs : j ≠ i := fun same => other (same ▸ member)
    simpa [differs] using new j member
  · rintro ⟨other,new⟩ j member
    have differs : j ≠ i := fun same => other (same ▸ member)
    simpa [differs] using new j member

/-- The loop over the header succeeds on known names, each for the first time. -/
theorem headerColumns_ok (injective : Function.Injective colName) (found : Fin n → Bool)
    (line : List UInt8) (result : List (Option (Fin n)) × (Fin n → Bool)) :
    headerColumns colName false found line = .ok result ↔
      ∃ order : List (Fin n), columnsOf line = order.map colName ∧ order.Nodup ∧
        (∀ i ∈ order, found i = false) ∧
        result = (order.map some,fun i => found i || decide (i ∈ order)) := by
  fun_induction headerColumns colName false found line generalizing result with
  | case1 found line e failed =>
    constructor
    · intro ok
      cases ok
    rintro ⟨order,columns,-,new,-⟩
    rw [columnsOf_chop] at columns
    obtain ⟨i,order,rfl,name,-⟩ := List.map_eq_cons_iff.mp columns.symm
    have ok := (headerColumn_ok injective found (trim (chopNextColumn line).1) _).mpr
      ⟨i,name,new i List.mem_cons_self,rfl⟩
    rw [ok] at failed
    cases failed
  | case2 found line place after first chopped ok =>
    obtain ⟨i,name,new,same⟩ := (headerColumn_ok injective found _ _).mp ok
    obtain ⟨rfl,rfl⟩ := Prod.mk.inj same
    have columns : columnsOf line = [colName i] := by
      rw [columnsOf_chop,name,chopped]
    have after : Function.update found i true = fun j => found j || decide (j ∈ [i]) := by
      simpa using found_update found i []
    rw [columns,after]
    constructor
    · intro ok
      exact ⟨[i],rfl,List.nodup_singleton i,by simpa using new,(Except.ok.inj ok).symm⟩
    · rintro ⟨order,names,-,-,rfl⟩
      obtain ⟨j,others,rfl,same,none⟩ := List.map_eq_cons_iff.mp names.symm
      obtain rfl := List.map_eq_nil_iff.mp none
      obtain rfl := injective same
      rfl
  | case3 found line place after first rest chopped ok shorter ih =>
    obtain ⟨i,name,new,same⟩ := (headerColumn_ok injective found _ _).mp ok
    obtain ⟨rfl,rfl⟩ := Prod.mk.inj same
    have columns : columnsOf line = colName i :: columnsOf rest := by
      rw [columnsOf_chop,name,chopped]
    rw [columns]
    constructor
    · intro ok
      cases later : headerColumns colName false (Function.update found i true) rest with
      | error e =>
        rw [later] at ok
        cases ok
      | ok found' =>
        obtain ⟨order,names,once,news,rfl⟩ := (ih found').mp later
        obtain ⟨other,news⟩ := (new_update found i order).mp news
        rw [later,found_update] at ok
        refine ⟨i :: order,by rw [names]; rfl,List.nodup_cons.mpr ⟨other,once⟩,
          List.forall_mem_cons.mpr ⟨new,news⟩,(Except.ok.inj ok).symm⟩
    · rintro ⟨order,names,once,news,rfl⟩
      obtain ⟨j,order,rfl,same,others⟩ := List.map_eq_cons_iff.mp names.symm
      obtain rfl := injective same
      obtain ⟨other,once⟩ := List.nodup_cons.mp once
      obtain ⟨-,news⟩ := List.forall_mem_cons.mp news
      have later := (ih _).mpr ⟨order,others.symm,once,(new_update found j order).mpr ⟨other,news⟩,rfl⟩
      rw [later,found_update]
      rfl

/-- A header is accepted when it has known names only, and none twice. -/
theorem parseHeaderLine_ok (injective : Function.Injective colName) (line : List UInt8)
    (colOrder : List (Option (Fin n))) :
    parseHeaderLine colName false true line = .ok colOrder ↔
      ∃ order : List (Fin n), columnsOf line = order.map colName ∧ order.Nodup ∧
        colOrder = order.map some := by
  have loop := headerColumns_ok injective (fun _ => false) line
  cases ends : headerColumns colName false (fun _ => false) line with
  | error e =>
    simp only [parseHeaderLine,ends,reduceCtorEq,false_iff]
    rintro ⟨order,names,once,-⟩
    have ok := (loop _).mpr ⟨order,names,once,fun _ _ => rfl,rfl⟩
    rw [ends] at ok
    cases ok
  | ok result =>
    have same : parseHeaderLine colName false true line = .ok result.1 := by
      simp only [parseHeaderLine,ends]
      split <;> simp
    obtain ⟨order,names,once,-,rfl⟩ := (loop result).mp ends
    rw [same]
    constructor
    · intro ok
      exact ⟨order,names,once,(Except.ok.inj ok).symm⟩
    · rintro ⟨other,names',-,rfl⟩
      have equal := injective.list_map (names.symm.trans names')
      rw [equal]

def cellsOf (line : Option (List UInt8)) : List (List UInt8) := (line.map columnsOf).getD []

def place (row : Fin n → Option (List UInt8)) (cells : List (Fin n × List UInt8)) :
    Fin n → Option (List UInt8) :=
  cells.foldl (fun row (i,cell) => Function.update row i (some cell)) row

/-- A line is accepted when it has as many columns as the header. -/
theorem parseLine_ok (row row' : Fin n → Option (List UInt8)) (order : List (Fin n))
    (line : Option (List UInt8)) :
    parseLine row (order.map some) line = .ok row' ↔
      (cellsOf line).length = order.length ∧ row' = place row (order.zip (cellsOf line)) := by
  induction order generalizing row line with
  | nil =>
    cases line with
    | none =>
      simp only [List.map_nil,parseLine,Except.ok.injEq,cellsOf,Option.map_none,Option.getD_none,
        List.length_nil,true_and,List.zip_nil_left,place,List.foldl_nil]
      exact eq_comm
    | some line => simp [parseLine,cellsOf,columnsOf_ne_nil]
  | cons i order ih =>
    cases line with
    | none => simp [parseLine,cellsOf]
    | some line =>
      have cells : cellsOf (some line) =
          trim (chopNextColumn line).1 :: cellsOf (chopNextColumn line).2 := by
        change columnsOf line = _
        rw [columnsOf_chop]
        cases (chopNextColumn line).2 <;> rfl
      rw [cells]
      simp only [List.map_cons,parseLine,ih,List.length_cons,Nat.add_right_cancel_iff]
      rfl

theorem place_other {row : Fin n → Option (List UInt8)} {cells : List (Fin n × List UInt8)}
    {i : Fin n} (other : ∀ cell, (i,cell) ∉ cells) : place row cells i = row i := by
  induction cells generalizing row with
  | nil => rfl
  | cons first cells ih =>
    have later : place (Function.update row first.1 (some first.2)) cells i =
        Function.update row first.1 (some first.2) i :=
      ih fun cell member => other cell (List.mem_cons_of_mem _ member)
    have differs : i ≠ first.1 := fun same => other first.2 (same ▸ List.mem_cons_self)
    exact later.trans (Function.update_of_ne differs _ _)

theorem place_mem {row : Fin n → Option (List UInt8)} {cells : List (Fin n × List UInt8)}
    (once : (cells.map Prod.fst).Nodup) {i : Fin n} {cell : List UInt8} (member : (i,cell) ∈ cells) :
    place row cells i = some cell := by
  induction cells generalizing row with
  | nil => cases member
  | cons first cells ih =>
    obtain ⟨new,once⟩ := List.nodup_cons.mp once
    rcases List.mem_cons.mp member with same | later
    · subst same
      have other : ∀ later, (i,later) ∉ cells := fun later again =>
        new (List.mem_map.mpr ⟨(i,later),again,rfl⟩)
      exact (place_other other).trans (Function.update_self _ _ _)
    · exact ih once later

def valueFrom (x : Nat) (col : List UInt8) : Nat :=
  col.foldl (fun x c => 10*x + (c.toNat - 48)) x

theorem le_valueFrom (x : Nat) (col : List UInt8) : x ≤ valueFrom x col := by
  induction col generalizing x with
  | nil => exact le_rfl
  | cons c col ih =>
    have more := ih (10*x + (c.toNat - 48))
    change x ≤ valueFrom (10*x + (c.toNat - 48)) col
    omega

/-- A number in decimal digits that fits into an `unsigned`. No digit at all is a zero. -/
def Numeral (col : List UInt8) (x : UInt32) : Prop :=
  (∀ c ∈ col, isDigit c = true) ∧ valueFrom 0 col = x.toNat

theorem digit_toNat {c : UInt8} (digits : isDigit c = true) :
    (digit c).toNat = c.toNat - 48 ∧ c.toNat - 48 ≤ 9 := by
  obtain ⟨low,high⟩ := Bool.and_eq_true_iff.mp digits
  have low : 48 ≤ c.toNat := UInt8.le_iff_toNat_le.mp (of_decide_eq_true low)
  have high : c.toNat ≤ 57 := UInt8.le_iff_toNat_le.mp (of_decide_eq_true high)
  have sub : (c - 48).toNat = c.toNat - 48 := UInt8.toNat_sub_of_le _ _ (UInt8.le_iff_toNat_le.mpr low)
  exact ⟨by rw [digit,UInt8.toNat_toUInt32,sub],by omega⟩

theorem overflow_iff {c : UInt8} (x : UInt32) (digits : isDigit c = true) :
    (4294967295 - digit c)/10 < x ↔ 4294967296 ≤ 10*x.toNat + (c.toNat - 48) := by
  obtain ⟨value,small⟩ := digit_toNat digits
  have room : digit c ≤ 4294967295 := by
    rw [UInt32.le_iff_toNat_le,value]
    exact le_trans small (by decide)
  rw [UInt32.lt_iff_toNat_lt,UInt32.toNat_div,UInt32.toNat_sub_of_le _ _ room,value]
  change (4294967295 - (c.toNat - 48))/10 < x.toNat ↔ _
  omega

theorem parseUnsignedInteger_from (x y : UInt32) (col : List UInt8) :
    parseUnsignedInteger x col = .ok y ↔
      (∀ c ∈ col, isDigit c = true) ∧ valueFrom x.toNat col = y.toNat := by
  induction col generalizing x with
  | nil =>
    simp only [parseUnsignedInteger,Except.ok.injEq,List.not_mem_nil,false_implies,implies_true,
      true_and]
    exact UInt32.toNat_inj.symm
  | cons c col ih =>
    rw [parseUnsignedInteger,List.forall_mem_cons]
    change _ ↔ _ ∧ valueFrom (10*x.toNat + (c.toNat - 48)) col = y.toNat
    by_cases digits : isDigit c = true
    · rw [if_pos digits]
      by_cases tooLarge : (4294967295 - digit c)/10 < x
      · rw [if_pos tooLarge]
        have large := (overflow_iff x digits).mp tooLarge
        have more := le_valueFrom (10*x.toNat + (c.toNat - 48)) col
        have less := y.toNat_lt
        constructor
        · intro ok
          cases ok
        · rintro ⟨-,same⟩
          omega
      · have fits := mt (overflow_iff x digits).mpr tooLarge
        have next : (10*x + digit c).toNat = 10*x.toNat + (c.toNat - 48) := by
          rw [UInt32.toNat_add,UInt32.toNat_mul,(digit_toNat digits).1]
          change (10*x.toNat % 2^32 + (c.toNat - 48)) % 2^32 = _
          omega
        rw [if_neg tooLarge,ih,next]
        simp [digits]
    · rw [if_neg digits]
      simp [digits]

theorem parseUnsignedInteger_ok (col : List UInt8) (x : UInt32) :
    parseUnsignedInteger 0 col = .ok x ↔ Numeral col x := parseUnsignedInteger_from 0 x col

end CloudSim.Csv
