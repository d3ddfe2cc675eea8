import RaftNode.OsError
/-!
# Paths

A path is a text whose slashes separate parts. An empty part and a single dot lead nowhere else, and two dots
lead back to the folder before. The parent of a path is a matter of the text alone: parts that lead nowhere
else do not count at its end, two dots do.
-/
namespace RaftNode.Path

/-- What stands between the slashes of a text. -/
def split : List Char → List (List Char)
  | [] => [[]]
  | c :: rest =>
    if c = '/' then [] :: split rest
    else
      match split rest with
      | [] => [[c]]
      | part :: more => (c :: part) :: more

/-- A part that leads nowhere else. -/
def stays (part : String) : Bool := part = "" || part = "."

/-- A part that names a member of a folder. -/
def isName (part : String) : Bool := !stays part && part ≠ ".."

/-- Names are no longer than this, in bytes. -/
def nameLimit : Nat := 255

/-- Paths are shorter than this, in bytes. -/
def limit : Nat := 4096

def parts (path : String) : Except OsError (List String) :=
  if path.toList.contains '\x00' then .error .nameWithNul
  else if path.isEmpty then .error .notFound
  else if limit ≤ path.utf8ByteSize then .error .nameTooLong
  else .ok ((split path.toList).map String.ofList)

/-- The parts without those at the end that lead nowhere else. -/
def trim (parts : List String) : List String := (parts.reverse.dropWhile stays).reverse

def parent (parts : List String) : List String := trim (trim parts).dropLast

theorem length_trim_le (parts : List String) : (trim parts).length ≤ parts.length := by
  simpa [trim] using (List.dropWhile_sublist stays (l := parts.reverse)).length_le

theorem length_parent_lt {parts : List String} (h : parts ≠ []) : (parent parts).length < parts.length := by
  have h₁ := length_trim_le (trim parts).dropLast
  have h₂ := length_trim_le parts
  have h₃ := List.length_pos_iff.2 h
  simp only [parent, List.length_dropLast] at *
  omega

def join (path name : String) : String :=
  if path.isEmpty || path.endsWith "/" then path ++ name else path ++ "/" ++ name

end RaftNode.Path
