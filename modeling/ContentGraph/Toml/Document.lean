import ContentGraph.Toml.Numbers
import ContentGraph.Toml.Tables

/-! Reading TOML text. -/

namespace ContentGraph.Toml

mutual

/-- The first number bounds the depth of lists and tables, and the second one the calls to come. -/
def value (depth : Nat) : Nat → Scan Datum
  | 0 => failure
  | n + 1 => do
    match (← get).head? with
    | some '"' | some '\'' => return .text (← string)
    | some '[' =>
      expect "["
      if depth ≤ 1 then failure else return .list (← items (depth - 1) n)
    | some '\x7b' =>
      expect "\x7b"
      skipBlanks
      if depth ≤ 1 then failure
      else if ← accept "\x7d" then return .table []
      else
        let pairs ← inlinePairs (depth - 1) n
        StateT.lift ((inlineMembers pairs).map .table)
    | some 't' =>
      expect "true"
      return .flag true
    | some 'f' =>
      expect "false"
      return .flag false
    | _ => number

/-- The rest of a list. The last item may have a comma behind it. -/
def items (depth : Nat) : Nat → Scan (List Datum)
  | 0 => failure
  | n + 1 => do
    skipGaps true n
    if ← accept "]" then return []
    else
      let item ← value depth n
      skipGaps true n
      if ← accept "," then return item :: (← items depth n)
      else
        expect "]"
        return [item]

def inlinePairs (depth : Nat) : Nat → Scan (List (List String × Datum))
  | 0 => failure
  | n + 1 => do
    let key ← dottedKey
    expect "="
    skipBlanks
    let d ← value depth n
    skipBlanks
    if ← accept "," then return (key, d) :: (← inlinePairs depth n)
    else
      expect "\x7d"
      return [(key, d)]

end

def statement : Scan Statement := do
  if ← accept "[[" then
    let key ← dottedKey
    expect "]]"
    return .element key
  else if ← accept "[" then
    let key ← dottedKey
    expect "]"
    return .header key
  else
    let key ← dottedKey
    expect "="
    skipBlanks
    return .pair key (← value depthLimit (2 * (← room)))

/-- The statements of a text, each on lines of its own. The number bounds the lines to come. -/
def statements : Nat → Scan (List Statement)
  | 0 => failure
  | n + 1 => do
    skipBlanks
    if (← get) = [] then return []
    else
      let found ← (do lineEnd; return none) <|> some <$> statement
      match found with
      | none => statements n
      | some s =>
        lineEnd
        return s :: (← statements n)

end Toml

/-- The table that a TOML text holds. A byte order mark at its start does not count. -/
def readToml? (s : String) : Option Datum := do
  let chars := match s.toList with
    | '\ufeff' :: rest => rest
    | chars => chars
  let (found, _) ← (Toml.statements (chars.length + 1)).run chars
  let assembly ← found.foldlM Toml.Assembly.add {}
  return .table (Toml.dataOf assembly.members)

end ContentGraph
