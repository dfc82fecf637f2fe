import SchemaTypings.Sdl.Document
import SchemaTypings.Sdl.Token

/-!
# The grammar of schema texts

A reader takes tokens from the front of a list and leaves the rest. The grammar needs one token of foresight and no
second try, so a text that a reader refuses is no schema text.

- Types and values nest. A type is read by counting the brackets that open, a value against a list of what is still
  due; both recur on the tokens.
- Descriptions, directives and default values are recognised and dropped.
- A ragged block string breaks off the reading where a string is due. Elsewhere it is refused like any other token.
- `Document.parse` reads a whole text.
-/

namespace SchemaTypings.Sdl

/-- Why a text does not denote a document. -/
inductive TextFault where
  /-- The text does not follow the grammar. -/
  | malformed
  /-- A block string cannot be stripped of its indentation. -/
  | ragged
  deriving DecidableEq, Repr

/-- Takes something from the front of a list of tokens. -/
abbrev Reader (α : Type) := StateT (List Token) (Except TextFault) α

namespace Reader

/-! ## Single tokens -/

/-- Refuses the text. -/
def refuse : Reader α := throw .malformed

/-- Takes the given token. -/
def expect (t : Token) : Reader Unit := fun ts =>
  match ts with
  | u :: rest => if u = t then .ok ((), rest) else .error .malformed
  | [] => .error .malformed

/-- Takes the given token if it is next. -/
def accept (t : Token) : Reader Bool := fun ts =>
  match ts with
  | u :: rest => if u = t then .ok (true, rest) else .ok (false, ts)
  | [] => .ok (false, [])

/-- Takes a name. -/
def name : Reader String := fun ts =>
  match ts with
  | .name n :: rest => .ok (n, rest)
  | _ => .error .malformed

/-- The next token, which stays. -/
def peek : Reader (Option Token) := fun ts => .ok (ts.head?, ts)

/-! ## Sequences -/

/-- Takes items up to a closing token, which is taken too. An item that takes no token is refused. -/
def untilClose (close : Token) (item : Reader α) (ts : List Token) : Except TextFault (List α × List Token) :=
  match ts with
  | [] => .error .malformed
  | t :: rest =>
    if t = close then .ok ([], rest)
    else
      match item (t :: rest) with
      | .error f => .error f
      | .ok (a, rest') =>
        if rest'.length < (t :: rest).length then
          (untilClose close item rest').map fun (as, left) => (a :: as, left)
        else .error .malformed
termination_by ts.length
decreasing_by assumption

/-- Takes one or more items between two tokens. -/
def enclosed (opening close : Token) (item : Reader α) : Reader (List α) := do
  expect opening
  let first ← item
  let rest ← untilClose close item
  return first :: rest

/-- Takes one or more items between two tokens, or nothing if the first token is not next. -/
def enclosed? (opening close : Token) (item : Reader α) : Reader (List α) := do
  if (← peek) = some opening then enclosed opening close item else return []

/-- The names that follow a first one, each after a separator. -/
def moreNames (separator : Token) : List Token → Except TextFault (List String × List Token)
  | [] => .ok ([], [])
  | t :: ts =>
    if t = separator then
      match ts with
      | .name n :: rest => (moreNames separator rest).map fun (ns, left) => (n :: ns, left)
      | _ => .error .malformed
    else .ok ([], t :: ts)

/-- One or more names with a separator between them and perhaps one in front. -/
def names (separator : Token) : Reader (List String) := do
  let _ ← accept separator
  let first ← name
  let rest ← moreNames separator
  return first :: rest

/-! ## Values -/

/-- What must still be read of a value. -/
inductive Due where
  | value
  /-- Values up to a closing bracket. -/
  | items
  /-- Named values up to a closing brace. -/
  | entries
  deriving DecidableEq, Repr

/-- Takes what is due. Variables stand for values only where `withVariables` allows them. -/
def settle (withVariables : Bool) : List Due → List Token → Except TextFault (List Token)
  | [], ts => .ok ts
  | _ :: _, [] => .error .malformed
  | .entries :: due, .mark '\x7d' :: ts => settle withVariables due ts
  | .entries :: due, .name _ :: .mark ':' :: ts => settle withVariables (.value :: .entries :: due) ts
  | .entries :: _, _ :: _ => .error .malformed
  | .items :: due, .mark ']' :: ts => settle withVariables due ts
  | d :: due, t :: ts =>
    let due := if d = .items then d :: due else due
    match t with
    | .name _ | .number | .text => settle withVariables due ts
    | .ragged => .error .ragged
    | .mark '[' => settle withVariables (.items :: due) ts
    | .mark '\x7b' => settle withVariables (.entries :: due) ts
    | .mark '$' =>
      match ts with
      | .name _ :: rest => if withVariables then settle withVariables due rest else .error .malformed
      | _ => .error .malformed
    | _ => .error .malformed

/-- Takes a value. -/
def value (withVariables : Bool) : Reader Unit := fun ts => (settle withVariables [.value] ts).map ((), ·)

/-- Takes directives and says whether there are any. -/
def directives (ts : List Token) : Except TextFault (Bool × List Token) :=
  match ts with
  | .mark '@' :: .name _ :: rest =>
    let argument : Reader Unit := do
      let _ ← name
      expect (.mark ':')
      value true
    match enclosed? (.mark '(') (.mark ')') argument rest with
    | .error f => .error f
    | .ok (_, left) =>
      if left.length ≤ rest.length then (directives left).map fun (_, end') => (true, end') else .error .malformed
  | .mark '@' :: _ => .error .malformed
  | _ => .ok (false, ts)
termination_by ts.length
decreasing_by simp; omega

/-! ## Types -/

/-- Closes lists around a type, from the inside out. -/
def closeLists (t : TypeSyntax) : Nat → List Token → Except TextFault (TypeSyntax × List Token)
  | 0, ts => .ok (t, ts)
  | n + 1, .mark ']' :: .mark '!' :: ts => closeLists (.list t true) n ts
  | n + 1, .mark ']' :: ts => closeLists (.list t false) n ts
  | _ + 1, _ => .error .malformed

/-- Takes a type inside as many lists as brackets have been opened. -/
def typeWithin (opened : Nat) : List Token → Except TextFault (TypeSyntax × List Token)
  | .mark '[' :: ts => typeWithin (opened + 1) ts
  | .name n :: .mark '!' :: ts => closeLists (.named n true) opened ts
  | .name n :: ts => closeLists (.named n false) opened ts
  | _ => .error .malformed

/-- Takes a type. -/
def type : Reader TypeSyntax := typeWithin 0

/-! ## Members of definitions -/

/-- Takes a description if there is one. -/
def description : Reader Unit := fun ts =>
  match ts with
  | .text :: rest => .ok ((), rest)
  | .ragged :: _ => .error .ragged
  | _ => .ok ((), ts)

/-- Takes an argument, or a field of an input type. -/
def input : Reader InputSyntax := do
  description
  let n ← name
  expect (.mark ':')
  let t ← type
  if ← accept (.mark '=') then value false
  let _ ← directives
  return ⟨n, t⟩

/-- Takes the arguments of a field or directive. -/
def arguments : Reader (List InputSyntax) := enclosed? (.mark '(') (.mark ')') input

/-- Takes a field of an object or interface. -/
def field : Reader FieldSyntax := do
  description
  let n ← name
  let as ← arguments
  expect (.mark ':')
  let t ← type
  let _ ← directives
  return ⟨n, t, as⟩

/-- Takes a value of an enum. -/
def enumValue : Reader String := do
  description
  let n ← name
  let _ ← directives
  return n

/-- Takes the members of a definition in braces, if there are any. -/
def body (item : Reader α) : Reader (List α) := enclosed? (.mark '\x7b') (.mark '\x7d') item

/-- Takes the names of interfaces after `implements`, if it is next. -/
def implements : Reader (List String) := do
  if ← accept (.name "implements") then names (.mark '&') else return []

/-! ## Statements -/

/-- Takes a type definition from its keyword on, and says whether it carries directives. -/
def typeDefinition : Reader (TypeDefinition × Bool) := do
  match ← name with
  | "scalar" =>
    let n ← name
    let ds ← directives
    return (.scalar n, ds)
  | "type" =>
    let n ← name
    let is ← implements
    let ds ← directives
    return (.object n is (← body field), ds)
  | "interface" =>
    let n ← name
    let is ← implements
    let ds ← directives
    return (.interface n is (← body field), ds)
  | "union" =>
    let n ← name
    let ds ← directives
    let ms ← if ← accept (.mark '=') then names (.mark '|') else pure []
    return (.union n ms, ds)
  | "enum" =>
    let n ← name
    let ds ← directives
    return (.enum n (← body enumValue), ds)
  | "input" =>
    let n ← name
    let ds ← directives
    return (.input n (← body input), ds)
  | _ => refuse

/-- Whether an extension adds something. Conformance alone extends an object but not an interface. -/
def addsSomething (directives : Bool) : TypeDefinition → Bool
  | .scalar _ => directives
  | .object _ is fs => directives || !is.isEmpty || !fs.isEmpty
  | .interface _ _ fs => directives || !fs.isEmpty
  | .union _ ms => directives || !ms.isEmpty
  | .enum _ vs => directives || !vs.isEmpty
  | .input _ fs => directives || !fs.isEmpty

/-- The places where a directive can be declared to apply. -/
def locations : List String :=
  ["QUERY", "MUTATION", "SUBSCRIPTION", "FIELD", "FRAGMENT_DEFINITION", "FRAGMENT_SPREAD", "INLINE_FRAGMENT",
    "VARIABLE_DEFINITION", "SCHEMA", "SCALAR", "OBJECT", "FIELD_DEFINITION", "ARGUMENT_DEFINITION", "INTERFACE",
    "UNION", "ENUM", "ENUM_VALUE", "INPUT_OBJECT", "INPUT_FIELD_DEFINITION"]

/-- Takes the locations of a directive definition. There may be none, but then without a separator. -/
def directiveLocations : Reader Unit := do
  match ← peek with
  | some (.name _) | some (.mark '|') =>
    let ls ← names (.mark '|')
    if ls.all (· ∈ locations) then return () else refuse
  | _ => return ()

/-- Takes a directive definition from its keyword on. -/
def directiveDefinition : Reader Statement := do
  expect (.name "directive")
  expect (.mark '@')
  let n ← name
  let as ← arguments
  let _ ← accept (.name "repeatable")
  expect (.name "on")
  directiveLocations
  return .directive n as

/-- Takes a schema definition. -/
def schemaDefinition : Reader Statement := do
  expect (.name "schema")
  let _ ← directives
  expect (.mark '\x7b')
  let operation : Reader (String × String) := do
    let n ← name
    expect (.mark ':')
    return (n, ← name)
  let os ← untilClose (.mark '\x7d') operation
  match os.foldlM (fun acc (n, t) => acc.add? n t) Operations.none with
  | some o => return .operations o
  | none => refuse

/-- Takes one statement. -/
def statement : Reader Statement := do
  match ← peek with
  | some (.name "schema") => schemaDefinition
  | some (.name "extend") =>
    expect (.name "extend")
    let (t, ds) ← typeDefinition
    if addsSomething ds t then return .extension t else refuse
  | _ =>
    description
    if (← peek) = some (.name "directive") then directiveDefinition
    else return .definition (← typeDefinition).1

/-- Takes statements to the end. -/
def statements (ts : List Token) : Except TextFault (List Statement) :=
  match ts with
  | [] => .ok []
  | t :: rest =>
    match statement (t :: rest) with
    | .error f => .error f
    | .ok (s, left) =>
      if left.length < (t :: rest).length then (statements left).map (s :: ·) else .error .malformed
termination_by ts.length
decreasing_by assumption

end Reader

/-- The document that a text denotes. An empty document is refused. -/
def Document.parse (text : String) : Except TextFault Document := do
  match ← Reader.statements (Token.scan text) with
  | [] => throw .malformed
  | s :: ss => return ⟨s :: ss⟩

end SchemaTypings.Sdl
