/-!
# Faults of the file system

Why an operation on a file failed, and the text with which the operating system reports it.
-/

namespace FeatureFlags

/-- What can go wrong with a path or a file. -/
inductive FileFault where
  | notFound
  | outOfMemory
  | permissionDenied
  | busy
  | alreadyExists
  | notADirectory
  | isADirectory
  | invalidArgument
  | noSpaceLeft
  | nameTooLong
  | directoryNotEmpty
  | tooManyLinks
  | nulInName
  | notUtf8
deriving DecidableEq, Repr

def FileFault.message : FileFault → String
  | notFound => "No such file or directory (os error 2)"
  | permissionDenied => "Permission denied (os error 13)"
  | busy => "Device or resource busy (os error 16)"
  | alreadyExists => "File exists (os error 17)"
  | notADirectory => "Not a directory (os error 20)"
  | isADirectory => "Is a directory (os error 21)"
  | invalidArgument => "Invalid argument (os error 22)"
  | noSpaceLeft => "No space left on device (os error 28)"
  | nameTooLong => "File name too long (os error 36)"
  | directoryNotEmpty => "Directory not empty (os error 39)"
  | tooManyLinks => "Too many levels of symbolic links (os error 40)"
  | outOfMemory => "out of memory"
  | nulInName => "file name contained an unexpected NUL byte"
  | notUtf8 => "stream did not contain valid UTF-8"

end FeatureFlags
