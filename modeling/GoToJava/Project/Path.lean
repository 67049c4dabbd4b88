/-!
Paths of files. A path is kept as it was written; what it means is the list of its components, which
knows no repeated or trailing slashes and no dots except one at the start.
-/

namespace GoToJava.Path

/-- One step of a path. -/
inductive Component where
  | root
  | here
  | up
  | name (text : String)
  deriving DecidableEq, Repr, Inhabited

namespace Component

def text : Component → String
  | root => "/"
  | here => "."
  | up => ".."
  | name t => t

/-- The root comes first, then dots, then names in the order of their characters. -/
def rank : Component → Nat
  | root => 0
  | here => 1
  | up => 2
  | name _ => 3

def before (a b : Component) : Bool :=
  match a, b with
  | name s, name t => decide (s < t)
  | a, b => decide (a.rank < b.rank)

end Component

/-- The texts between slashes. -/
def pieces (path : String) : List String :=
  ((path.toList.splitOn '/').map String.ofList)

def isAbsolute (path : String) : Bool := path.toList.head? == some '/'

/-- The component of a text between slashes, if it is one. -/
def component? : String → Option Component
  | "" => none
  | "." => none
  | ".." => some .up
  | text => some (.name text)

def components (path : String) : List Component :=
  let steps := (pieces path).filterMap component?
  if isAbsolute path then .root :: steps
  else if (pieces path).head? == some "." then .here :: steps
  else steps

/-- A path of some components. -/
def ofComponents (components : List Component) : String :=
  let join (cs : List Component) : String := "/".intercalate (cs.map (·.text))
  match components with
  | .root :: rest => "/" ++ join rest
  | cs => join cs

/-- A path below another one. An absolute path stays as it is. -/
def join (path below : String) : String :=
  if isAbsolute below || path.isEmpty then below
  else if path.toList.getLast? == some '/' then path ++ below
  else path ++ "/" ++ below

/-- The name of a file, if the path ends with a name. -/
def fileName? (path : String) : Option String :=
  match (components path).getLast? with
  | some (.name text) => some text
  | _ => none

/-- Drops slashes and single dots from the end of a path. -/
def trimEnd (pieces : List String) : List String :=
  (pieces.reverse.dropWhile fun p => p == "" || p == ".").reverse

/-- The path without its last component. -/
def parent? (path : String) : Option String :=
  match (components path).getLast? with
  | none | some .root => none
  | some .here => some ""
  | some _ =>
    let rest := trimEnd (trimEnd (pieces path)).dropLast
    if rest.isEmpty then
      some (if isAbsolute path then "/" else if (pieces path).head? == some "." then "." else "")
    else some ("/".intercalate rest)

/-- Whether one path comes before another: their components are compared one by one. -/
def before (a b : String) : Bool := go (components a) (components b)
where
  go : List Component → List Component → Bool
    | [], [] => false
    | [], _ :: _ => true
    | _ :: _, [] => false
    | x :: xs, y :: ys => x.before y || (x == y && go xs ys)

/-- The rest of a list after another one that it starts with. -/
def dropStart? : List Component → List Component → Option (List Component)
  | [], rest => some rest
  | x :: xs, y :: ys => if x = y then dropStart? xs ys else none
  | _ :: _, [] => none

/-- A path as seen from a directory above it. From elsewhere it is what it is. -/
def relative (path base : String) : String :=
  let all := components path
  "/".intercalate (((dropStart? (components base) all).getD all).map (·.text))

/-- Go sources, tests aside. -/
def isGoSource (path : String) : Bool :=
  match fileName? path with
  | some name => name.endsWith ".go" && !name.endsWith "_test.go"
  | none => false

/-- The directory named `src` around a path, the innermost if there are several. Directories below
it are packages. -/
def sourceRoot? (path : String) : Option String :=
  match (components path).reverse.dropWhile (· ≠ .name "src") with
  | [] => none
  | found => some (ofComponents found.reverse)

end GoToJava.Path
