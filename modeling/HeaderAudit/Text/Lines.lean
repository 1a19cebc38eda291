/-! A carriage return directly before a newline belongs to the line end. Text
after the last newline is a line of its own unless it is empty, and a carriage
return there is ordinary text. -/

namespace HeaderAudit.Text

/-- The lines of a text without their ends. -/
def lines : List Char → List (List Char)
  | [] => []
  | '\n' :: rest => [] :: lines rest
  | '\r' :: '\n' :: rest => [] :: lines rest
  | head :: rest =>
      match lines rest with
      | [] => [[head]]
      | line :: others => (head :: line) :: others

/-- The texts with a newline between neighbours. -/
def joinLines (texts : List (List Char)) : List Char :=
  ['\n'].intercalate texts

end HeaderAudit.Text
