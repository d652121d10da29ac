/-!
A working directory with files in it, as far as reading and writing one file needs it. What lies
outside of it is not known and counts as absent.
-/
namespace BuildScript

inductive ReadError where
  | notFound
  | notADirectory
  | isADirectory
  | nameTooLong
  | nullInName
  | other (text : String)
deriving Repr, DecidableEq

def ReadError.message : ReadError → String
  | notFound => "No such file or directory (os error 2)"
  | notADirectory => "Not a directory (os error 20)"
  | isADirectory => "Is a directory (os error 21)"
  | nameTooLong => "File name too long (os error 36)"
  | nullInName => "file name contained an unexpected NUL byte"
  | other text => text

structure Directory where
  files : List (String × List UInt8)

namespace Directory

/-- Where a path has led to so far: a folder, none if it lies outside, or a file by its name. -/
inductive Place where
  | folder (inside : Option (List String))
  | file (name : String)

def enter (d : Directory) (folder : List String) (name : String) : Except ReadError Place :=
  let there := folder ++ [name]
  match d.files.find? fun f => f.1.splitOn "/" == there with
  | some f => .ok (.file f.1)
  | none =>
    if d.files.any fun f => there.isPrefixOf (f.1.splitOn "/") then .ok (.folder (some there))
    else .error .notFound

def follow (d : Directory) : Place → List String → Except ReadError Place
  | place, [] => .ok place
  | .file _, _ :: _ => .error .notADirectory
  | .folder inside, step :: steps =>
    if step == "" || step == "." then d.follow (.folder inside) steps
    else if step == ".." then
      d.follow (.folder (inside.bind fun f => if f.isEmpty then none else some f.dropLast)) steps
    else if step.utf8ByteSize > 255 then .error .nameTooLong
    else
      match inside with
      | none => .error .notFound
      | some folder =>
        match d.enter folder step with
        | .ok place => d.follow place steps
        | .error e => .error e

def resolve (d : Directory) (path : String) : Except ReadError String :=
  if path.contains '\x00' then .error .nullInName
  else if path.isEmpty then .error .notFound
  else if path.utf8ByteSize ≥ 4096 then .error .nameTooLong
  else
    let start := if path.startsWith "/" then none else some []
    match d.follow (.folder start) (path.splitOn "/") with
    | .error e => .error e
    | .ok (.folder _) => .error .isADirectory
    | .ok (.file name) => .ok name

def read (d : Directory) (path : String) : Except ReadError (List UInt8) :=
  (d.resolve path).map fun name => (d.files.lookup name).getD []

def write (d : Directory) (path : String) (content : List UInt8) : Directory :=
  match d.resolve path with
  | .error _ => d
  | .ok name => ⟨d.files.map fun f => if f.1 == name then (f.1, content) else f⟩

end Directory
end BuildScript
