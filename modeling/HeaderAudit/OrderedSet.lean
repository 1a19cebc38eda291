/-! A set is the increasing list of its members. When an equal member is
present, that one stays and the new one is dropped, which shows when members
that compare equal are spelled differently. -/

namespace HeaderAudit.OrderedSet

variable {value : Type} [Ord value]

/-- Whether an equal member is present. -/
def contains (new : value) (members : List value) : Bool :=
  members.any fun member => compare new member == .eq

/-- The set with one more member, unless an equal one is present. -/
def insert (new : value) : List value → List value
  | [] => [new]
  | member :: rest =>
      match compare new member with
      | .lt => new :: member :: rest
      | .eq => member :: rest
      | .gt => member :: insert new rest

/-- Insert values one after the other, so that of equal values the first one
is kept. -/
def insertAll (members values : List value) : List value :=
  values.foldl (fun members new => insert new members) members

/-- The set of the values of a list.  Of equal values the last one is kept. -/
def ofList (values : List value) : List value :=
  values.foldr insert []

end HeaderAudit.OrderedSet
