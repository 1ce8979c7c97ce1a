import Caf.Spec.Dumper

/-!
# Looking for afl-fuzz

`LookupAflExecutable` works on the memory of the variable PATH itself: it writes a NUL behind a directory while it
copies it. Which files are executable is a parameter.
-/

namespace Caf

/-- What a variable of the environment holds: characters without a NUL. -/
structure CString where
  chars : StdString
  noNul : 0 ∉ chars

/-- The memory of PATH with its NUL, and the files that have been tested. -/
structure Lookup where
  buffer : StdString
  tested : List StdString

abbrev LookupM := StateT Lookup (Except Error)

namespace Lookup

/-! ## Pointers into the variable -/

def readChar (p : ℕ) : LookupM UInt8 := do
  match (← get).buffer[p]? with
  | some ch => return ch
  | none => throw .badPointer

def writeChar (p : ℕ) (ch : UInt8) : LookupM Unit := do
  let s ← get
  if p < s.buffer.length then set { s with buffer := s.buffer.set p ch } else throw .badPointer

/-- The first place of a character before the NUL. -/
def findChar (accept : UInt8) : ℕ → StdString → Except Error (Option ℕ)
  | _, [] => .error .badPointer
  | p, ch :: rest =>
    if ch = 0 then .ok none
    else if ch = accept then .ok (some p)
    else findChar accept (p + 1) rest

/-- `strpbrk` for one character. -/
def strpbrk (p : ℕ) (accept : UInt8) : LookupM (Option ℕ) := do
  findChar accept p ((← get).buffer.drop p)

/-- The characters before the NUL. -/
def untilNul : StdString → Except Error StdString
  | [] => .error .badPointer
  | ch :: rest => if ch = 0 then .ok [] else (untilNul rest).map (ch :: ·)

/-- `std::string(p)`. -/
def copyString (p : ℕ) : LookupM StdString := do
  untilNul ((← get).buffer.drop p)

/-! ## The lookup -/

/-- `AFL_EXECUTABLE_NAME`. -/
def aflExecutableName : StdString := text "afl-fuzz"

variable (executable : StdString → Bool)

def isValidExecutable (path : StdString) : LookupM Bool := do
  modify fun s => { s with tested := s.tested ++ [path] }
  return executable path

/-- `LookupAflExecutable`, in one directory. -/
def lookupInDir (dir : StdString) : LookupM StdString := do
  let dir := if dir ≠ [] ∧ dir.getLast? ≠ some 47 then dir ++ [47] else dir
  let dir := dir ++ aflExecutableName
  if ← isValidExecutable executable (cStr dir) then return dir else return []

/-- The directory that starts at `pathVar`. Its end is a NUL while it is copied. -/
def copyDir (pathVar : ℕ) : Option ℕ → LookupM StdString
  | none => copyString pathVar
  | some pathEnd => do
    writeChar pathEnd 0
    let dir ← copyString pathVar
    writeChar pathEnd 58
    return dir

/-- The body of the loop: what is returned, or the next `pathVar`. -/
def lookupTurn (pathVar : ℕ) : LookupM (StdString ⊕ ℕ) := do
  let pathEnd ← strpbrk pathVar 58
  if pathEnd = some pathVar then return .inr pathVar
  else
    let path ← lookupInDir executable (← copyDir pathVar pathEnd)
    if path ≠ [] then return .inl path
    else
      match pathEnd with
      | none => return .inl []
      | some pathEnd => return .inr (pathEnd + 1)

/-- The turns of the loop over PATH, at most `fuel` of them. The condition of the loop moves `pathVar` on. -/
def lookupLoop : ℕ → ℕ → LookupM StdString
  | 0, _ => throw .outOfFuel
  | fuel + 1, pathVar => do
    if (← readChar pathVar) = 0 then return []
    else
      match ← lookupTurn executable (pathVar + 1) with
      | .inl path => return path
      | .inr pathVar => lookupLoop fuel pathVar

/-- `LookupAflExecutable`. What `getenv` returns is null or a pointer into the memory of PATH. -/
def lookupAflExecutable (fuel : ℕ) (getenv : Option ℕ) : LookupM StdString := do
  if ← isValidExecutable executable aflExecutableName then return aflExecutableName
  else
    match getenv with
    | none => return []
    | some pathVar => lookupLoop executable fuel pathVar

/-- A lookup with a value of PATH. -/
def lookup (fuel : ℕ) (path : CString) : Except Error (StdString × Lookup) :=
  lookupAflExecutable executable fuel (some 0) ⟨path.chars ++ [0], []⟩

/-! ## What it is for -/

/-- The file in a directory. -/
def fileIn (dir : StdString) : StdString :=
  (if dir ≠ [] ∧ dir.getLast? ≠ some 47 then dir ++ [47] else dir) ++ aflExecutableName

/-- The components of PATH, empty ones included. -/
def pathDirs (path : CString) : List StdString := path.chars.splitOn 58

/-- The files up to the first that is executable. -/
def upToFirst : List StdString → List StdString
  | [] => []
  | file :: files => file :: if executable file then [] else upToFirst files

def isHit (dir : StdString) : Bool := dir ≠ [] && executable (fileIn dir)

/-- The components of PATH up to the first with an executable file. -/
def dirsToFirst (dirs : List StdString) : List StdString := upToFirst (isHit executable) dirs

/-- The lookup ends. It tests the files of the directories in PATH in their order, up to the first that is executable,
and returns that file, or the empty string. PATH is as before. -/
def FollowsPath (path : CString) : Prop :=
  let files := ((pathDirs path).filter (· ≠ [])).map fileIn
  ∃ turns, ∀ fuel ≥ turns, lookup executable fuel path =
    .ok ((files.find? executable).getD [],
      ⟨path.chars ++ [0], aflExecutableName :: upToFirst executable files⟩)

/-- Each component that is not empty directly follows an empty one, and the last two are not both empty. -/
structure Padded (cs : List StdString) : Prop where
  first : cs.head? = some []
  follows : cs.IsChain fun c d => d ≠ [] → c = []
  last : ¬ [[], []] <:+ cs

end Lookup

end Caf
