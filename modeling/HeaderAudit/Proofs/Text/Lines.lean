import HeaderAudit.Text.Lines
import Mathlib.Data.List.Basic

/-! Texts that are joined by newlines are found again, up to a carriage return
at the end of each; the last one keeps it. -/

namespace HeaderAudit.Text

/-- A line without the carriage return at its end, if there is one. -/
def dropReturn (line : List Char) : List Char :=
  if line.getLast? = some '\r' then line.dropLast else line

theorem dropReturn_of_ne
    {line : List Char} (noReturn : line.getLast? ≠ some '\r') :
    dropReturn line = line :=
  if_neg noReturn

theorem dropReturn_append_of_ne_nil
    (front : List Char) {line : List Char} (some : line ≠ []) :
    dropReturn (front ++ line) = front ++ dropReturn line := by
  unfold dropReturn
  rw [List.getLast?_append_of_ne_nil front some]
  split
  · exact List.dropLast_append_of_ne_nil some
  · rfl

theorem dropReturn_eq_self_iff {line : List Char} :
    dropReturn line = line ↔ line.getLast? ≠ some '\r' := by
  constructor
  · intro same ends
    have shorter := congrArg List.length same
    rw [dropReturn, if_pos ends, List.length_dropLast] at shorter
    have empty : line = [] := List.length_eq_zero_iff.1 (by omega)
    rw [empty] at ends
    cases ends
  · exact dropReturn_of_ne

theorem lines_cons_of_ne
    {head : Char} {rest line : List Char} {others : List (List Char)}
    (noNewline : head ≠ '\n')
    (noReturn : head = '\r' → rest.head? ≠ some '\n')
    (restLines : lines rest = line :: others) :
    lines (head :: rest) = (head :: line) :: others := by
  rw [lines, restLines]
  · exact noNewline
  · intro after isReturn restEq
    rw [restEq] at noReturn
    exact noReturn isReturn rfl

/-- What stands before the first newline is the first line. -/
theorem lines_append_of_noNewline
    {line : List Char} (noNewline : '\n' ∉ line) (rest : List Char) :
    lines (line ++ '\n' :: rest) = dropReturn line :: lines rest := by
  induction line with
  | nil => rfl
  | cons head tail inductionHypothesis =>
      have notHead := List.ne_of_not_mem_cons noNewline
      have notTail := List.not_mem_of_not_mem_cons noNewline
      have later := inductionHypothesis notTail
      cases tail with
      | nil =>
          by_cases isReturn : head = '\r'
          · subst isReturn
            rfl
          · rw [dropReturn_of_ne (by simpa using isReturn)]
            exact lines_cons_of_ne (Ne.symm notHead) (absurd · isReturn) rfl
      | cons second others =>
          have keeps :
              dropReturn (head :: second :: others) =
                head :: dropReturn (second :: others) :=
            dropReturn_append_of_ne_nil [head] (List.cons_ne_nil _ _)
          rw [keeps]
          refine lines_cons_of_ne (Ne.symm notHead) (fun _ begins => ?_) later
          exact notTail (List.mem_of_mem_head? begins)

/-- A text without newlines is one line, unless it is empty. -/
theorem lines_of_noNewline
    {line : List Char} (noNewline : '\n' ∉ line) (some : line ≠ []) :
    lines line = [line] := by
  induction line with
  | nil => exact absurd rfl some
  | cons head tail inductionHypothesis =>
      have notHead := List.ne_of_not_mem_cons noNewline
      have notTail := List.not_mem_of_not_mem_cons noNewline
      by_cases empty : tail = []
      · subst empty
        rw [lines]
        · rfl
        · exact Ne.symm notHead
        · nofun
      · refine
          lines_cons_of_ne (Ne.symm notHead) (fun _ begins => ?_)
            (inductionHypothesis notTail empty)
        exact notTail (List.mem_of_mem_head? begins)

theorem newline_notMem_of_mem_lines {text : List Char} :
    ∀ {line : List Char}, line ∈ lines text → '\n' ∉ line := by
  fun_induction lines text with
  | case1 => nofun
  | case2 rest inductionHypothesis =>
      intro line member
      rcases List.mem_cons.1 member with rfl | later
      · exact List.not_mem_nil
      · exact inductionHypothesis later
  | case3 rest inductionHypothesis =>
      intro line member
      rcases List.mem_cons.1 member with rfl | later
      · exact List.not_mem_nil
      · exact inductionHypothesis later
  | case4 head rest noNewline _ _ inductionHypothesis =>
      intro line member
      rw [List.mem_singleton.1 member]
      simpa using Ne.symm noNewline
  | case5 head rest noNewline _ first others restLines inductionHypothesis =>
      intro line member
      rcases List.mem_cons.1 member with rfl | later
      · have absent := inductionHypothesis (restLines ▸ List.mem_cons_self)
        exact
          List.not_mem_cons_of_ne_of_not_mem (Ne.symm noNewline) absent
      · exact inductionHypothesis (restLines ▸ List.mem_cons_of_mem _ later)

theorem joinLines_cons (first : List Char) {others : List (List Char)}
    (more : others ≠ []) :
    joinLines (first :: others) = first ++ '\n' :: joinLines others := by
  rw [joinLines, List.intercalate_cons_of_ne_nil more]
  simp [joinLines]

/-- Joined texts are found again, and only the last one can keep a carriage
return at its end. -/
theorem lines_joinLines_append_singleton
    {texts : List (List Char)} {last : List Char}
    (noNewlines : ∀ text ∈ texts, '\n' ∉ text)
    (lastNoNewline : '\n' ∉ last) (some : last ≠ []) :
    lines (joinLines (texts ++ [last])) = texts.map dropReturn ++ [last] := by
  induction texts with
  | nil =>
      rw [List.nil_append, joinLines, List.intercalate_singleton]
      exact lines_of_noNewline lastNoNewline some
  | cons first others inductionHypothesis =>
      obtain ⟨firstNoNewline, othersNoNewlines⟩ :=
        List.forall_mem_cons.1 noNewlines
      have more : others ++ [last] ≠ [] := by simp
      rw [List.cons_append, joinLines_cons first more,
        lines_append_of_noNewline firstNoNewline,
        inductionHypothesis othersNoNewlines, List.map_cons, List.cons_append]

/-- The characters can stand on one line. -/
def IsLine (text : List Char) : Prop :=
  ∀ char ∈ text, char ≠ '\n' ∧ char ≠ '\r'

instance (text : List Char) : Decidable (IsLine text) :=
  List.decidableBAll (fun char => char ≠ '\n' ∧ char ≠ '\r') text

theorem IsLine.noNewline {text : List Char} (isLine : IsLine text) :
    '\n' ∉ text :=
  fun member => (isLine '\n' member).1 rfl

theorem IsLine.dropReturn_eq {text : List Char} (isLine : IsLine text) :
    dropReturn text = text :=
  dropReturn_of_ne fun ends =>
    (isLine '\r' (List.mem_of_getLast? ends)).2 rfl

theorem lines_append_newline
    {line : List Char} (isLine : IsLine line) (rest : List Char) :
    lines (line ++ '\n' :: rest) = line :: lines rest := by
  rw [lines_append_of_noNewline isLine.noNewline, isLine.dropReturn_eq]

theorem lines_joinLines
    {texts : List (List Char)} (some : texts ≠ [])
    (areLines : ∀ text ∈ texts, IsLine text) (rest : List Char) :
    lines (joinLines texts ++ '\n' :: rest) = texts ++ lines rest := by
  induction texts with
  | nil => exact absurd rfl some
  | cons first others inductionHypothesis =>
      obtain ⟨firstIsLine, othersAreLines⟩ := List.forall_mem_cons.1 areLines
      by_cases more : others = []
      · subst more
        rw [joinLines, List.intercalate_singleton]
        exact lines_append_newline firstIsLine rest
      · rw [joinLines_cons first more, List.append_assoc, List.cons_append,
          lines_append_newline firstIsLine,
          inductionHypothesis more othersAreLines]
        rfl

end HeaderAudit.Text
