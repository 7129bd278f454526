import Mathlib.Data.List.TakeWhile

/-! The lines of a text. -/
namespace CloudSim.Lines

variable {A : Type} [DecidableEq A] (newline : A)

/-- What stands before each newline, and after the last one if anything does. -/
def lines : List A → List (List A)
  | [] => []
  | c :: text =>
    if c = newline then [] :: lines text
    else match lines text with
      | [] => [[c]]
      | line :: rest => (c :: line) :: rest

def afterLine (text : List A) : List A := (text.dropWhile (· ≠ newline)).drop 1

@[simp] theorem lines_nil : lines newline [] = [] := rfl

variable {newline} {line text : List A}

theorem lines_cut (more : text ≠ []) :
    lines newline text = text.takeWhile (· ≠ newline) :: lines newline (afterLine newline text) := by
  induction text with
  | nil => exact absurd rfl more
  | cons c text ih =>
    by_cases ends : c = newline
    · simp [lines,afterLine,ends]
    · cases text with
      | nil => simp [lines,afterLine,ends]
      | cons d text =>
        rw [lines,if_neg ends,ih (List.cons_ne_nil d text)]
        simp [afterLine,ends]

theorem lines_terminated (text : List A) (free : newline ∉ line) :
    lines newline (line ++ newline :: text) = line :: lines newline text := by
  induction line with
  | nil => simp [lines]
  | cons c line ih =>
    obtain ⟨differs,free⟩ := not_or.mp (mt List.mem_cons.mpr free)
    rw [List.cons_append,lines,if_neg (Ne.symm differs),ih free]

theorem length_afterLine (more : text ≠ []) :
    (afterLine newline text).length < text.length := by
  have shorter := (text.dropWhile_sublist (· ≠ newline)).length_le
  have some : 0 < text.length := List.length_pos_iff.mpr more
  simp only [afterLine,List.length_drop]
  omega

theorem lines_flatMap {texts : List (List A)} (free : ∀ line ∈ texts, newline ∉ line) :
    lines newline (texts.flatMap (· ++ [newline])) = texts := by
  induction texts with
  | nil => rfl
  | cons line texts ih =>
    obtain ⟨first,rest⟩ := List.forall_mem_cons.mp free
    rw [List.flatMap_cons,List.append_assoc,List.singleton_append,lines_terminated _ first,ih rest]

omit [DecidableEq A] in
theorem mem_intercalate {separator c : A} {cells : List (List A)}
    (member : c ∈ [separator].intercalate cells) : c = separator ∨ ∃ cell ∈ cells, c ∈ cell := by
  induction cells with
  | nil => simp at member
  | cons first cells ih =>
    cases cells with
    | nil => exact Or.inr ⟨first,List.mem_cons_self,by simpa using member⟩
    | cons second cells =>
      rw [List.intercalate_cons_cons,List.append_assoc] at member
      rcases List.mem_append.mp member with inside | later
      · exact Or.inr ⟨first,List.mem_cons_self,inside⟩
      · rcases List.mem_append.mp later with comma | rest
        · exact Or.inl (List.mem_singleton.mp comma)
        · rcases ih rest with same | ⟨cell,inside,found⟩
          · exact Or.inl same
          · exact Or.inr ⟨cell,List.mem_cons_of_mem _ inside,found⟩

end CloudSim.Lines
