/-! # Records as Text

  The one-line text of a record: its name, then the shown fields between braces. An *open*
  record has further fields that are not shown, which two dots stand for.
-/

namespace ReadThrough.Text

/-- The shown fields of a record, each as `name: value`, separated by commas. -/
def fields (shown : List (String × String)) : String :=
  ", ".intercalate (shown.map fun (name, value) => name ++ ": " ++ value)

/-- The text of a record all of whose fields are shown. -/
def closedRecord (name : String) (shown : List (String × String)) : String :=
  name ++ " \x7b " ++ fields shown ++ " \x7d"

/-- The text of a record with further fields that are not shown. -/
def openRecord (name : String) (shown : List (String × String)) : String :=
  name ++ " \x7b " ++ fields shown ++ ", .. \x7d"

end ReadThrough.Text
