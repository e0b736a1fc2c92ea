import Astreum.Floats

namespace Astreum

section Tokens

open Python

def skipLine : List Char → List Char := List.dropWhile (· != '\n')

/-- `skip_ws_and_comments`. -/
def skipBlank : Nat → List Char → List Char
  | n + 1, ch :: cs =>
    if isSpace ch then skipBlank n cs
    else if ch = ';' then skipBlank n (skipLine cs)
    else ch :: cs
  | _, cs => cs

/-- The expression in parentheses at the front, and what follows it. -/
def takeParens : Nat → Nat → List Char → List Char × List Char
  | n + 1, depth, ch :: cs =>
    if ch = ')' ∧ depth = 1 then ([ch], cs)
    else if ch = ';' then
      let line := cs.takeWhile (· != '\n')
      let (front, back) := takeParens n depth (skipLine cs)
      (ch :: line ++ front, back)
    else
      let depth := if ch = '(' then depth + 1 else if ch = ')' then depth - 1 else depth
      let (front, back) := takeParens n depth cs
      (ch :: front, back)
  | _, _, cs => ([], cs)

/-- The end of a quoted atom. -/
def atomStop (ch : Char) : Bool := isSpace ch || ch ∈ ['(', ')', '"', ';']

def takeAtom : List Char → List Char × List Char
  | '#' :: ';' :: cs => ([], '#' :: ';' :: cs)
  | ch :: cs =>
    if atomStop ch then ([], ch :: cs)
    else ((ch :: (takeAtom cs).1), (takeAtom cs).2)
  | [] => ([], [])

/-- Whether a quote mark quotes what follows it. -/
def quotes : List Char → Bool
  | [] => false
  | '#' :: ';' :: _ => false
  | ch :: _ => !(ch ∈ [' ', '\t', '\n', '\r', ')', '"', ';'])

def flush (cur : List Char) : List String :=
  if cur = [] then [] else [String.ofList cur.reverse]

/-- `tokenize`, with the characters of the token under way in reverse. -/
def tokenizeFrom : Nat → List Char → List Char → List String
  | 0, cur, _ => flush cur
  | n + 1, cur, cs =>
    let rest := skipBlank cs.length cs
    let (done, cur) := if rest.length = cs.length then ([], cur) else (flush cur, [])
    done ++ match rest with
      | [] => flush cur
      | '"' :: cs =>
        let (body, cs) := cs.span (· != '"')
        let close := if cs = [] then [] else ['"']
        flush cur ++ String.ofList ('"' :: body ++ close) :: tokenizeFrom n [] (cs.drop 1)
      | '\'' :: cs =>
        if quotes cs then
          match cs with
          | '(' :: _ =>
            let (inner, cs) := takeParens cs.length 0 cs
            flush cur ++ "(" :: "'" :: tokenizeFrom n [] inner ++ ")" :: tokenizeFrom n [] cs
          | cs =>
            let (atom, cs) := takeAtom cs
            flush cur ++ "(" :: "'" :: String.ofList atom :: ")" :: tokenizeFrom n [] cs
        else flush cur ++ "'" :: tokenizeFrom n [] cs
      | ch :: cs =>
        if ch = '(' ∨ ch = ')' then flush cur ++ String.ofList [ch] :: tokenizeFrom n [] cs
        else tokenizeFrom n (ch :: cur) cs

def tokenize (source : String) : List String :=
  tokenizeFrom (source.length + 1) [] source.toList

end Tokens

section Parse

def hexDigit? (ch : Char) : Option Nat :=
  if ch.isDigit then some (ch.toNat - 48)
  else if 'a' ≤ ch ∧ ch ≤ 'f' then some (ch.toNat - 87)
  else if 'A' ≤ ch ∧ ch ≤ 'F' then some (ch.toNat - 55)
  else none

/-- `bytes.fromhex`. -/
def bytesFromHex : List Char → Option Bytes
  | [] => some []
  | a :: b :: cs => do
    let x ← hexDigit? a
    let y ← hexDigit? b
    return UInt8.ofNat (16 * x + y) :: (← bytesFromHex cs)
  | _ => none

/-- `_build_chain`. -/
def buildChain (items : List Expr) : Expr :=
  if items = [] then link (.symbol "'") .nil else exprsToLinkedExpr items

def parseAtom (tok : String) : Py Expr :=
  let cs := tok.toList
  if tok = "nil" then .ok .nil
  else match cs with
    | '#' :: hex =>
      if cs.length ≠ 65 then .error .parseError
      else match bytesFromHex hex with
        | some h => .ok (refTo h)
        | none => .error .parseError
    | '"' :: body =>
      let closed := !body.isEmpty && body.getLast? == some '"'
      .ok (str_ (String.ofList (if closed then body.dropLast else body)))
    | _ =>
      if (cs.take 2).map Char.toLower = ['0', 'x'] then
        match bytesFromHex (cs.drop 2) with
        | some data => .ok (.bytes data)
        | none => .error .valueError
      else match Python.intOfText tok with
        | .ok n => .ok (int_ n)
        | .error _ => match (if '.' ∈ cs then Python.floatOfText tok else .error .valueError) with
          | .ok x => floatResult "fp64" x
          | .error _ => .ok (.symbol tok)

/-- A dotted pair. Two hash literals make a link of the two hashes. -/
def dottedPair (items : List Expr) (tail : Expr) : Expr :=
  match items, tail with
  | [.link _ (.byHash h) _], .link _ (.byHash t) _ => .link .none (.byHash h) (.byHash t)
  | items, tail => items.foldr link tail

mutual

/-- `_parse_one`, from the tokens left. -/
def parseOne : Nat → List String → Py (Expr × List String)
  | 0, _ => .error .outOfFuel
  | _ + 1, [] => .error .parseError
  | n + 1, tok :: toks =>
    if tok = "(" then parseItems n [] toks
    else if tok = ")" then .error .parseError
    else do return (← parseAtom tok, toks)

/-- The loop over the items of a list, with the items so far in reverse. -/
def parseItems : Nat → List Expr → List String → Py (Expr × List String)
  | 0, _, _ => .error .outOfFuel
  | _ + 1, _, [] => .error .parseError
  | n + 1, items, tok :: toks =>
    if tok = ")" then .ok (buildChain items.reverse, toks)
    else if tok = "." then
      if items = [] then .error .parseError
      else do
        let (tail, toks) ← parseOne n toks
        match toks with
        | ")" :: toks => return (dottedPair items.reverse tail, toks)
        | _ => .error .parseError
    else do
      let (item, toks) ← parseOne n (tok :: toks)
      parseItems n (item :: items) toks

end

/-- `parse(tokenize(source))`, with the check that there is something to parse. -/
def parseText (source : String) : Py Expr := do
  let tokens := tokenize source
  if tokens = [] then .error .parseError
  else
    let (e, _) ← parseOne (2 * tokens.length + 2) tokens
    return e

end Parse

end Astreum
