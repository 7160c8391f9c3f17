import ResourcePki.CommandLine.Run

/-! A host in memory: a flat folder of files, the environment and what was printed. -/

namespace ResourcePki

structure Machine where
  files : List (String × ByteArray)
  out : String := ""
  err : String := ""

namespace Machine

/-- The name of a file without steps that lead nowhere; a path from the root or one that ends at a
folder names no file. -/
def plainPath? (path : String) : Option String :=
  match path.splitOn "/" with
  | [] => none
  | first :: steps =>
    if (steps ≠ [] ∧ first = "") ∨ (steps.getLastD first) ∈ ["", ".", ".."] then none
    else some (String.intercalate "/" ((first :: steps).filter fun part => part ≠ "." && part ≠ ""))

def ofFiles (files : List (String × ByteArray)) : Machine where
  files := files.filterMap fun e => (plainPath? e.1).map (·, e.2)

def contentOf? (m : Machine) (path : String) : Option ByteArray := do
  m.files.lookup (← plainPath? path)

def hasFolder (m : Machine) (folder : String) : Bool :=
  m.files.any fun e => (folder ++ "/").toList.isPrefixOf e.1.toList

/-- The file to write to: one that is there, or a new one in a folder that is there. -/
def writable? (m : Machine) (path : String) : Option String := do
  let path ← plainPath? path
  let folder := (path.splitOn "/").dropLast
  if m.hasFolder path then none
  else if folder = [] ∨ m.hasFolder (String.intercalate "/" folder) then return path
  else none

def append (m : Machine) (path text : String) : Machine :=
  let content := (m.files.lookup path).getD ByteArray.empty
  { m with files := (path, content ++ text.toUTF8) :: m.files.filter (·.1 ≠ path) }

/-- Adds a text to a file, which is made if need be; tells whether that worked. -/
def write (path text : String) : StateM Machine Bool := do
  let m ← get
  match m.writable? path with
  | some path =>
    set (m.append path text)
    return true
  | none => return false

def host (now : Time) (environment : List (String × String)) : Host (StateM Machine) where
  now := pure now
  environment name := pure (environment.lookup name)
  readFile path := do
    let m ← get
    return m.contentOf? path
  openFile path := write path ""
  appendFile path text := discard (write path text)
  print text := modify fun m => { m with out := m.out ++ text }
  printError text := modify fun m => { m with err := m.err ++ text }

end Machine

end ResourcePki
