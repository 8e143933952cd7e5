import GuardedCalls.Text.Basic

/-!
Why an operation on a tree of files fails, in the words of the operating system.
-/

namespace GuardedCalls

inductive TreeFault
  | notFound
  | exists
  | notDirectory
  | isDirectory
  | busy
  | nameTooLong
  | tooManyLinks
  | nulInName
deriving DecidableEq, Repr

namespace TreeFault

def message : TreeFault → Text
  | notFound => numbered "No such file or directory" 2
  | busy => numbered "Device or resource busy" 16
  | .exists => numbered "File exists" 17
  | notDirectory => numbered "Not a directory" 20
  | isDirectory => numbered "Is a directory" 21
  | nameTooLong => numbered "File name too long" 36
  | tooManyLinks => numbered "Too many levels of symbolic links" 40
  | nulInName => "file name contained an unexpected NUL byte".toList
where
  numbered (what : String) (code : Nat) : Text :=
    what.toList ++ " (os error ".toList ++ Text.ofNat code ++ [')']

end TreeFault
end GuardedCalls
