/-!
# Faults of the operating system

The faults that operations on files and sockets meet, with the texts the system has for them.
-/
namespace RaftNode

inductive OsError where
  | notFound
  | notPermitted
  | exists_
  | noSuchDevice
  | notDirectory
  | isDirectory
  | invalidArgument
  | nameTooLong
  | addressInUse
  | addressNotAvailable
  /-- A file name holds the character that ends names. -/
  | nameWithNul
  /-- The bytes read are not a text. -/
  | notText
  /-- The machine stopped in the middle of the operation. -/
  | powerLost
  deriving DecidableEq, Repr

namespace OsError

def message : OsError → String
  | notFound => "No such file or directory (os error 2)"
  | notPermitted => "Permission denied (os error 13)"
  | exists_ => "File exists (os error 17)"
  | noSuchDevice => "No such device (os error 19)"
  | notDirectory => "Not a directory (os error 20)"
  | isDirectory => "Is a directory (os error 21)"
  | invalidArgument => "Invalid argument (os error 22)"
  | nameTooLong => "File name too long (os error 36)"
  | addressInUse => "Address already in use (os error 98)"
  | addressNotAvailable => "Cannot assign requested address (os error 99)"
  | nameWithNul => "file name contained an unexpected NUL byte"
  | notText => "stream did not contain valid UTF-8"
  | powerLost => "power lost"

/-- The fault with a number that the system gave, if it is one of these. -/
def ofNumber? : Nat → Option OsError
  | 2 => some notFound
  | 13 => some notPermitted
  | 17 => some exists_
  | 19 => some noSuchDevice
  | 20 => some notDirectory
  | 21 => some isDirectory
  | 22 => some invalidArgument
  | 36 => some nameTooLong
  | 98 => some addressInUse
  | 99 => some addressNotAvailable
  | _ => none

end OsError

end RaftNode
