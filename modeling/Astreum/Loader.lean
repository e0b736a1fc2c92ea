import Astreum.DepthFirst
import Astreum.Parser
import Astreum.Store

namespace Astreum

section ModuleFiles

/-- The definitions of a module file, and the modules that it imports under their prefixes. -/
structure ModuleFile where
  defs : Dict String Expr
  imports : Dict String String

def ModuleFile.empty : ModuleFile := ⟨Dict.empty, Dict.empty⟩

variable (blake3 : Bytes → Bytes) (resolveIdentity : String → String → String)
  (files : String → Option String)

/-- `_link_to_list`. -/
def linkToList : Expr → Py (List Expr)
  | .link v h t =>
    if (Expr.link v h t).builtinTag blake3 ≠ "link" then .ok []
    else match h, t with
      | .loaded e, .loaded t => do return e :: (← linkToList t)
      | .loaded _, _ => .error .attributeError
      | _, .loaded _ => .error .attributeError
      | _, _ => .ok []
  | _ => .ok []

/-- `_strip_quotes`. -/
def stripQuotes (value : String) : String :=
  let cs := value.toList
  if 2 ≤ cs.length ∧ cs.head? = cs.getLast? ∧ (cs.head? = some '"' ∨ cs.head? = some '\'') then
    String.ofList cs.tail.dropLast
  else value

/-- `_path_from_expr`. -/
def pathFromExpr (e : Expr) : Py String := do
  let tag ← exprTagLocal blake3 e
  match e with
  | .symbol s => return stripQuotes s
  | .bytes data => utf8Decode data
  | _ => if tag = "symbol" ∨ tag = "bytes" then .error .attributeError else .error .valueError

/-- A form of a module file: a definition or an import. -/
def readForm (identity : String) (m : ModuleFile) (e : Expr) : Py ModuleFile := do
  match ← linkToList blake3 e with
  | [first, second, terminator] =>
    if (← exprTagLocal blake3 terminator) ≠ "symbol" then .error .valueError
    else if terminator = .symbol "def" then
      if (← exprTagLocal blake3 second) ≠ "symbol" then .error .valueError
      else match second with
        | .symbol name => return { m with defs := m.defs.insert name first }
        | _ => return m
    else if terminator = .symbol "import" then
      if (← exprTagLocal blake3 first) ≠ "symbol" then .error .valueError
      else
        let path ← pathFromExpr blake3 second
        match first with
        | .symbol p =>
          return { m with imports := m.imports.insert p (resolveIdentity path identity) }
        | _ => return m
    else .error .valueError
  | _ => .error .valueError

/-- The forms of a module file one after another. -/
def readForms (identity : String) : Nat → List String → ModuleFile → Py ModuleFile
  | _, [], m => .ok m
  | 0, _, _ => .error .outOfFuel
  | n + 1, tokens, m => do
    let (e, rest) ← parseOne (2 * tokens.length + 2) tokens
    readForms identity n rest (← readForm blake3 resolveIdentity identity m e)

/-- `text.replace("\r\n", "\n").replace("\r", "\n")`. -/
def unixLines : List Char → List Char
  | '\r' :: '\n' :: cs => '\n' :: unixLines cs
  | '\r' :: cs => '\n' :: unixLines cs
  | ch :: cs => ch :: unixLines cs
  | [] => []

/-- `_parse_module`. A file stays as it is while an environment is assembled. -/
def parseModule (identity : String) : Py ModuleFile := do
  match files identity with
  | none => .error .runtimeError
  | some text =>
    let tokens := tokenize (String.ofList (unixLines text.toList))
    let m ← readForms blake3 resolveIdentity identity tokens.length tokens .empty
    if m.defs.pairs = [] ∧ m.imports.pairs = [] then .error .valueError else return m

end ModuleFiles

section Resolving

/-- `s.split(".")`, on characters. -/
def splitChars : List Char → List (List Char)
  | [] => [[]]
  | ch :: cs =>
    if ch = '.' then [] :: splitChars cs
    else match splitChars cs with
      | part :: parts => (ch :: part) :: parts
      | [] => [[ch]]

def splitDots (s : String) : List String := (splitChars s.toList).map String.ofList

/-- `".".join(parts)`, on characters. -/
def joinChars : List (List Char) → List Char
  | [] => []
  | [part] => part
  | part :: parts => part ++ '.' :: joinChars parts

/-- A definition of a module under a chain of prefixes. -/
structure DefKey where
  identity : String
  name : String
  chain : List String
  deriving DecidableEq

/-- `_join_prefixes`. -/
def DefKey.qualified (key : DefKey) : String :=
  String.ofList (joinChars ((key.chain ++ [key.name]).map String.toList))

/-- What is bound so far, and which definitions have been visited. -/
structure Loading where
  env : Dict String Expr
  visited : List DefKey

abbrev LoadingOp := Stateful Loading Unit

variable (blake3 : Bytes → Bytes) (modules : String → Py ModuleFile)

/-- `_resolve_name_chain`: the definition that the parts of a dotted name lead to. -/
def locate : String → List String → List String → Py DefKey
  | _, [], _ => .error .valueError
  | m, [name], chain => do
    let _ ← modules m
    return ⟨m, name, chain⟩
  | m, first :: rest, chain => do
    match (← modules m).imports.get? first with
    | none => .error .valueError
    | some next => locate next rest (chain ++ [first])

/-- The definition that a symbol of a body refers to, where it refers to one. -/
def symbolTarget (file : ModuleFile) (key : DefKey) (sym : String) : Py (Option DefKey) :=
  if '.' ∈ sym.toList then
    match splitDots sym with
    | first :: rest => match file.imports.get? first with
      | some next => some <$> locate modules next rest (key.chain ++ [first])
      | none => .ok none
    | [] => .ok none
  else if (file.defs.get? sym).isSome then .ok (some ⟨key.identity, sym, key.chain⟩)
  else .ok none

section Walk

variable (onSymbol : String → LoadingOp)

/-- What is done at a link that is tagged as a symbol: its value stands for a name. -/
def onTagged : Val → LoadingOp
  | .str s => onSymbol s
  | _ => .raise .typeError

mutual

/-- `_walk_body`. -/
def Expr.walkBody : Expr → LoadingOp
  | .symbol s => onSymbol s
  | .link v h t => do
    let tag ← .ofExcept (exprTagLocal blake3 (.link v h t))
    if tag = "symbol" then onTagged onSymbol v
    else if (Expr.link v h t).builtinTag blake3 = "link" then do
      h.walkBody
      t.walkBody
    else return ()
  | _ => return ()

def Child.walkBody : Child → LoadingOp
  | .loaded e => e.walkBody
  | _ => return ()

end

end Walk

/-- What is done at a symbol of a body. -/
def resolveSymbol (file : ModuleFile) (key : DefKey) (visit : DefKey → LoadingOp) (sym : String) :
    LoadingOp := do
  match ← .ofExcept (symbolTarget modules file key sym) with
  | none => return ()
  | some target => visit target

/-- `_resolve_def`. -/
def resolveDef : Nat → DefKey → LoadingOp
  | 0, _ => .raise .outOfFuel
  | n + 1, key => do
    if key ∈ (← Eff.read).visited then return ()
    else do
      .update fun s => { s with visited := s.visited ++ [key] }
      let file ← .ofExcept (modules key.identity)
      match file.defs.get? key.name with
      | none => .raise .valueError
      | some body => do
        .update fun s => { s with env := s.env.insert key.qualified body }
        body.walkBody blake3 (resolveSymbol modules file key (resolveDef n))

/-- Where `assemble_env` starts. -/
def startKey (script target : String) : Py DefKey :=
  if '.' ∈ target.toList then locate modules script (splitDots target) []
  else .ok ⟨script, target, []⟩

/-- `assemble_env`, with a bound on the depth of the recursion. -/
def assembleEnv (n : Nat) (script target : String) : Py (Dict String Expr) := do
  let key ← startKey modules script target
  match resolveDef blake3 modules n key ⟨Dict.empty, []⟩ with
  | (.ok (), s) => return s.env
  | (.error e, _) => .error e

end Resolving

section Walked

variable (blake3 : Bytes → Bytes)

/-- What a walk meets, and then what another does unless the first was cut short. -/
def thenWalked (a b : List String × Option PyError) : List String × Option PyError :=
  match a.2 with
  | some _ => a
  | none => (a.1 ++ b.1, b.2)

def taggedName : Val → List String × Option PyError
  | .str s => ([s], none)
  | _ => ([], some .typeError)

mutual

/-- The symbols that a walk of a body meets in their order, and the error that cuts it short. -/
def Expr.walked : Expr → List String × Option PyError
  | .symbol s => ([s], none)
  | .link v h t => match exprTagLocal blake3 (.link v h t) with
    | .error e => ([], some e)
    | .ok tag =>
      if tag = "symbol" then taggedName v
      else if (Expr.link v h t).builtinTag blake3 = "link" then thenWalked h.walked t.walked
      else ([], none)
  | _ => ([], none)

def Child.walked : Child → List String × Option PyError
  | .loaded e => e.walked
  | _ => ([], none)

end

variable (onSymbol : String → LoadingOp)

/-- The symbols one after another, and then the error if there is one. -/
def onSymbols : List String → Option PyError → LoadingOp
  | [], none => return ()
  | [], some e => .raise e
  | s :: names, err => do
    onSymbol s
    onSymbols names err

theorem onSymbols_append (names names' : List String) (err : Option PyError) :
    onSymbols onSymbol (names ++ names') err =
      (onSymbols onSymbol names none >>= fun _ => onSymbols onSymbol names' err) := by
  induction names with
  | nil => rfl
  | cons s names ih =>
    rw [List.cons_append, onSymbols, ih, onSymbols, Eff.bind_assoc]

theorem onSymbols_error (names : List String) (err : PyError) (x : LoadingOp) :
    (onSymbols onSymbol names (some err) >>= fun _ => x) = onSymbols onSymbol names (some err) := by
  induction names with
  | nil => rfl
  | cons s names ih => rw [onSymbols, Eff.bind_assoc, ih]

theorem onSymbols_thenWalked (a b : List String × Option PyError) :
    onSymbols onSymbol (thenWalked a b).1 (thenWalked a b).2 =
      (onSymbols onSymbol a.1 a.2 >>= fun _ => onSymbols onSymbol b.1 b.2) := by
  obtain ⟨names, - | e⟩ := a
  · exact onSymbols_append onSymbol names b.1 b.2
  · exact (onSymbols_error onSymbol names e _).symm

theorem onSymbols_single (s : String) : onSymbols onSymbol [s] none = onSymbol s := by
  funext m
  simp only [onSymbols, bind, Eff.andThen]
  rcases onSymbol s m with ⟨- | u, m'⟩ <;> rfl

theorem onTagged_eq (v : Val) :
    onTagged onSymbol v = onSymbols onSymbol (taggedName v).1 (taggedName v).2 := by
  cases v with
  | str s => exact (onSymbols_single onSymbol s).symm
  | _ => rfl

mutual

/-- A walk does what is done at the symbols that it meets, one after another. -/
theorem Expr.walkBody_eq (e : Expr) : e.walkBody blake3 onSymbol =
    onSymbols onSymbol (e.walked blake3).1 (e.walked blake3).2 := by
  cases e with
  | symbol s => exact (onSymbols_single onSymbol s).symm
  | link v h t =>
    rw [Expr.walkBody, Expr.walked]
    rcases exprTagLocal blake3 (.link v h t) with err | tag
    · rfl
    rw [Eff.ofExcept_ok_bind]
    by_cases htag : tag = "symbol"
    · simp only [htag, if_true]
      exact onTagged_eq onSymbol v
    · simp only [htag, if_false]
      by_cases hlink : (Expr.link v h t).builtinTag blake3 = "link"
      · rw [if_pos hlink, if_pos hlink, Child.walkBody_eq h, Child.walkBody_eq t,
          onSymbols_thenWalked]
      · rw [if_neg hlink, if_neg hlink]
        rfl
  | _ => rfl

theorem Child.walkBody_eq (ch : Child) : ch.walkBody blake3 onSymbol =
    onSymbols onSymbol (ch.walked blake3).1 (ch.walked blake3).2 := by
  cases ch with
  | loaded e => exact Expr.walkBody_eq e
  | _ => rfl

end

end Walked

section Refining

open DepthFirst

variable (blake3 : Bytes → Bytes) (modules : String → Py ModuleFile)

/-- The body of a definition. -/
def bodyOf (key : DefKey) : Py Expr := do
  match (← modules key.identity).defs.get? key.name with
  | none => .error .valueError
  | some body => return body

/-- What the symbols of a body lead to, and the error that ends the walk. -/
def stepsOf (file : ModuleFile) (key : DefKey) : List String → Option PyError → List (Py DefKey)
  | [], none => []
  | [], some e => [.error e]
  | s :: names, err => match symbolTarget modules file key s with
    | .ok none => stepsOf file key names err
    | .ok (some target) => .ok target :: stepsOf file key names err
    | .error e => .error e :: stepsOf file key names err

/-- The definitions that a definition refers to. -/
def references (key : DefKey) : Py (List (Py DefKey)) := do
  let file ← modules key.identity
  match file.defs.get? key.name with
  | none => .error .valueError
  | some body => return stepsOf modules file key (body.walked blake3).1 (body.walked blake3).2

/-- The environment of the definitions that have been visited. -/
def boundBy (visited : List DefKey) : Dict String Expr :=
  visited.foldl (fun env key => match bodyOf modules key with
    | .ok body => env.insert key.qualified body
    | .error _ => env) Dict.empty

def loadingOf (visited : List DefKey) : Loading := ⟨boundBy modules visited, visited⟩

/-- The loader does what the visit of the references does. -/
def Follows (result : Option (Py (List DefKey))) (ran : Py Unit × Loading) : Prop :=
  match result with
  | none => ran.1 = .error .outOfFuel
  | some (.error e) => ran.1 = .error e
  | some (.ok visited) => ran = (.ok (), loadingOf modules visited)

theorem boundBy_append (visited : List DefKey) (key : DefKey) {body : Expr}
    (h : bodyOf modules key = .ok body) :
    boundBy modules (visited ++ [key]) = (boundBy modules visited).insert key.qualified body := by
  rw [boundBy, List.foldl_append]
  simp only [List.foldl_cons, List.foldl_nil, h]
  rfl

theorem fst_bind_error {x : LoadingOp} {f : Unit → LoadingOp} {m : Loading} {e : PyError}
    (h : (x m).1 = .error e) : ((x >>= f) m).1 = .error e := by
  rw [Eff.bind_of_error (Eff.eq_of_fst h)]

theorem follows_onSymbols (file : ModuleFile) (key : DefKey)
    {seek : DefKey → List DefKey → Option (Py (List DefKey))} {load : DefKey → LoadingOp}
    (h : ∀ target visited, Follows modules (seek target visited)
      (load target (loadingOf modules visited)))
    (names : List String) (err : Option PyError) (visited : List DefKey) :
    Follows modules (visitAll seek (stepsOf modules file key names err) visited)
      (onSymbols (resolveSymbol modules file key load) names err (loadingOf modules visited)) := by
  induction names generalizing visited with
  | nil =>
    cases err with
    | none => exact rfl
    | some e => exact rfl
  | cons s names ih =>
    rw [stepsOf, onSymbols]
    rcases htarget : symbolTarget modules file key s with e | - | target
    · simp only [resolveSymbol, htarget, visitAll]
      rfl
    · have hskip : resolveSymbol modules file key load s = pure () := by
        simp only [resolveSymbol, htarget]
        rfl
      rw [hskip]
      exact ih visited
    · have hvisit : resolveSymbol modules file key load s = load target := by
        simp only [resolveSymbol, htarget]
        rfl
      have hload := h target visited
      simp only [visitAll]
      rw [hvisit]
      rcases hseek : seek target visited with - | e | visited'
      · rw [hseek] at hload
        exact fst_bind_error hload
      · rw [hseek] at hload
        exact fst_bind_error hload
      · rw [hseek] at hload
        rw [Eff.bind_of_ok hload]
        exact ih visited'

/-- The loader visits the definitions depth first along the references. -/
theorem follows_resolveDef (n : Nat) (key : DefKey) (visited : List DefKey) :
    Follows modules (visit (references blake3 modules) n key visited)
      (resolveDef blake3 modules n key (loadingOf modules visited)) := by
  induction n generalizing key visited with
  | zero => exact rfl
  | succ n ih =>
    rw [visit, resolveDef, Eff.read_bind]
    by_cases hold : key ∈ visited
    · rw [if_pos hold]
      have hold' : key ∈ (loadingOf modules visited).visited := hold
      rw [if_pos hold']
      rfl
    have hold' : key ∉ (loadingOf modules visited).visited := hold
    rw [if_neg hold, if_neg hold', Eff.update_bind]
    rcases hfile : modules key.identity with e | file
    · have hrefs : references blake3 modules key = .error e := by
        rw [references, hfile]
        rfl
      rw [hrefs]
      rfl
    rw [Eff.ofExcept_ok_bind]
    rcases hbody : file.defs.get? key.name with - | body
    · have hrefs : references blake3 modules key = .error .valueError := by
        rw [references, hfile]
        simp only [bind, Except.bind, hbody]
      rw [hrefs]
      rfl
    have hrefs : references blake3 modules key =
        .ok (stepsOf modules file key (body.walked blake3).1 (body.walked blake3).2) := by
      rw [references, hfile]
      simp only [bind, Except.bind, hbody]
      rfl
    have hbodyOf : bodyOf modules key = .ok body := by
      rw [bodyOf, hfile]
      simp only [bind, Except.bind, hbody]
      rfl
    rw [hrefs]
    simp only [Eff.update_bind, Expr.walkBody_eq]
    have hstate : loadingOf modules (visited ++ [key]) =
        ⟨(boundBy modules visited).insert key.qualified body, visited ++ [key]⟩ := by
      rw [loadingOf, boundBy_append modules visited key hbodyOf]
    have hall := follows_onSymbols modules file key ih
      (body.walked blake3).1 (body.walked blake3).2 (visited ++ [key])
    rw [hstate] at hall
    exact hall

end Refining

section Qualified

theorem splitChars_dotless {cs part : List Char} (h : part ∈ splitChars cs) : '.' ∉ part := by
  induction cs generalizing part with
  | nil =>
    rw [List.mem_singleton.mp h]
    exact List.not_mem_nil
  | cons ch cs ih =>
    rw [splitChars] at h
    split at h
    · rcases List.mem_cons.mp h with rfl | h
      · exact List.not_mem_nil
      · exact ih h
    · rename_i hch
      rcases hparts : splitChars cs with - | ⟨first, parts⟩
      · rw [hparts] at h
        rw [List.mem_singleton.mp h]
        exact fun hmem => hch (List.mem_singleton.mp hmem).symm
      · rw [hparts] at h ih
        rcases List.mem_cons.mp h with rfl | h
        · intro hmem
          rcases List.mem_cons.mp hmem with heq | hmem
          · exact hch heq.symm
          · exact ih List.mem_cons_self hmem
        · exact ih (List.mem_cons_of_mem _ h)

theorem splitChars_append {part : List Char} (h : '.' ∉ part) (cs : List Char) :
    splitChars (part ++ '.' :: cs) = part :: splitChars cs := by
  induction part with
  | nil => simp [splitChars]
  | cons ch part ih =>
    obtain ⟨hch, hpart⟩ := not_or.mp (mt List.mem_cons.mpr h)
    rw [List.cons_append, splitChars, if_neg (Ne.symm hch), ih hpart]

theorem splitChars_of_dotless {part : List Char} (h : '.' ∉ part) : splitChars part = [part] := by
  induction part with
  | nil => rfl
  | cons ch part ih =>
    obtain ⟨hch, hpart⟩ := not_or.mp (mt List.mem_cons.mpr h)
    rw [splitChars, if_neg (Ne.symm hch), ih hpart]

theorem splitChars_joinChars {parts : List (List Char)} (hne : parts ≠ [])
    (h : ∀ part ∈ parts, '.' ∉ part) : splitChars (joinChars parts) = parts := by
  induction parts with
  | nil => exact absurd rfl hne
  | cons part parts ih =>
    have hpart := h part List.mem_cons_self
    cases parts with
    | nil => exact splitChars_of_dotless hpart
    | cons next parts =>
      rw [joinChars, splitChars_append hpart, ih (List.cons_ne_nil _ _)
        fun part' h' => h part' (List.mem_cons_of_mem _ h')]
      exact fun h' => nomatch h'

variable (modules : String → Py ModuleFile)

/-- The module that a chain of prefixes leads to. -/
def follow : String → List String → Py String
  | m, [] => .ok m
  | m, first :: rest => do
    match (← modules m).imports.get? first with
    | none => .error .valueError
    | some next => follow next rest

/-- A key whose chain leads to its module, without a dot in its parts. -/
structure DefKey.Tidy (script : String) (key : DefKey) : Prop where
  follow : follow modules script key.chain = .ok key.identity
  dotless : ∀ part ∈ key.chain ++ [key.name], '.' ∉ part.toList

variable {modules} {script : String} {key key' : DefKey}

theorem follow_append {m first next : String} {file : ModuleFile} {chain : List String}
    (h : follow modules script chain = .ok m) (hfile : modules m = .ok file)
    (hnext : file.imports.get? first = some next) :
    follow modules script (chain ++ [first]) = .ok next := by
  induction chain generalizing script with
  | nil =>
    cases h
    rw [List.nil_append, follow, hfile]
    simp only [bind, Except.bind, hnext]
    rfl
  | cons p chain ih =>
    rw [follow] at h
    obtain ⟨file', hfile', h⟩ := except_bind_eq_ok.mp h
    rw [List.cons_append, follow, hfile']
    rcases hp : file'.imports.get? p with - | next'
    · simp only [hp] at h
      cases h
    · simp only [hp] at h
      simp only [bind, Except.bind, hp]
      exact ih h

theorem tidy_locate {parts chain : List String} {m : String}
    (h : locate modules m parts chain = .ok key)
    (hfollow : follow modules script chain = .ok m)
    (hchain : ∀ part ∈ chain, '.' ∉ part.toList) (hparts : ∀ part ∈ parts, '.' ∉ part.toList) :
    key.Tidy modules script := by
  induction parts generalizing m chain with
  | nil => cases h
  | cons first rest ih =>
    have hfirst := hparts first List.mem_cons_self
    have hboth : ∀ part ∈ chain ++ [first], '.' ∉ part.toList := by
      intro part hpart
      rcases List.mem_append.mp hpart with hpart | hpart
      · exact hchain part hpart
      · rw [List.mem_singleton.mp hpart]
        exact hfirst
    cases rest with
    | nil =>
      rw [locate] at h
      obtain ⟨file, -, h⟩ := except_bind_eq_ok.mp h
      cases h
      exact ⟨hfollow, hboth⟩
    | cons next rest =>
      rw [locate] at h
      · obtain ⟨file, hfile, h⟩ := except_bind_eq_ok.mp h
        rcases himport : file.imports.get? first with - | m'
        · simp only [himport] at h
          cases h
        · simp only [himport] at h
          exact ih h (follow_append hfollow hfile himport) hboth
            fun part hpart => hparts part (List.mem_cons_of_mem _ hpart)
      · exact fun h' => nomatch h'

theorem dotless_splitDots {s part : String} (h : part ∈ splitDots s) : '.' ∉ part.toList := by
  obtain ⟨cs, hcs, rfl⟩ := List.mem_map.mp h
  rw [String.toList_ofList]
  exact splitChars_dotless hcs

theorem tidy_startKey {target : String} (h : startKey modules script target = .ok key) :
    key.Tidy modules script := by
  rw [startKey] at h
  split at h
  · exact tidy_locate h rfl (fun _ h => absurd h List.not_mem_nil) fun _ => dotless_splitDots
  · rename_i hdot
    cases h
    refine ⟨rfl, fun part hpart => ?_⟩
    rw [List.mem_singleton.mp hpart]
    exact hdot

/-- A symbol under a dot stands for what its prefix leads to, another one for the definition of its
own module. -/
theorem symbolTarget_eq_some {file : ModuleFile} {sym : String}
    (h : symbolTarget modules file key sym = .ok (some key')) :
    (∃ first rest next, splitDots sym = first :: rest ∧ file.imports.get? first = some next ∧
      locate modules next rest (key.chain ++ [first]) = .ok key') ∨
    ('.' ∉ sym.toList ∧ key' = ⟨key.identity, sym, key.chain⟩) := by
  rw [symbolTarget] at h
  split at h
  · rcases hparts : splitDots sym with - | ⟨first, rest⟩
    · rw [hparts] at h
      cases h
    rw [hparts] at h
    rcases himport : file.imports.get? first with - | next
    · simp only [himport] at h
      cases h
    simp only [himport] at h
    rcases hlocate : locate modules next rest (key.chain ++ [first]) with e | found
    · rw [hlocate] at h
      cases h
    rw [hlocate] at h
    cases h
    exact .inl ⟨first, rest, next, rfl, himport, hlocate⟩
  · rename_i hdot
    split at h
    · cases h
      exact .inr ⟨hdot, rfl⟩
    · cases h

theorem tidy_symbolTarget {file : ModuleFile} {sym : String} (hkey : key.Tidy modules script)
    (hfile : modules key.identity = .ok file)
    (h : symbolTarget modules file key sym = .ok (some key')) : key'.Tidy modules script := by
  have hall : ∀ part ∈ splitDots sym, '.' ∉ part.toList := fun _ => dotless_splitDots
  rcases symbolTarget_eq_some h with ⟨first, rest, next, hparts, himport, hlocate⟩ | ⟨hdot, rfl⟩
  · rw [hparts] at hall
    refine tidy_locate hlocate (follow_append hkey.follow hfile himport) (fun part hpart => ?_)
      fun part hpart => hall part (List.mem_cons_of_mem _ hpart)
    rcases List.mem_append.mp hpart with hpart | hpart
    · exact hkey.dotless part (List.mem_append_left _ hpart)
    · rw [List.mem_singleton.mp hpart]
      exact hall first List.mem_cons_self
  · refine ⟨hkey.follow, fun part hpart => ?_⟩
    rcases List.mem_append.mp hpart with hpart | hpart
    · exact hkey.dotless part (List.mem_append_left _ hpart)
    · rw [List.mem_singleton.mp hpart]
      exact hdot

/-- Definitions have different names in the environment. -/
theorem DefKey.Tidy.eq_of_qualified (h : key.Tidy modules script) (h' : key'.Tidy modules script)
    (heq : key.qualified = key'.qualified) : key = key' := by
  have hdots : ∀ k : DefKey, k.Tidy modules script →
      splitChars (joinChars ((k.chain ++ [k.name]).map String.toList)) =
        (k.chain ++ [k.name]).map String.toList := by
    intro k hk
    refine splitChars_joinChars (by simp) fun part hpart => ?_
    obtain ⟨s, hs, rfl⟩ := List.mem_map.mp hpart
    exact hk.dotless s hs
  have hlists : (key.chain ++ [key.name]).map String.toList =
      (key'.chain ++ [key'.name]).map String.toList := by
    rw [← hdots key h, ← hdots key' h']
    exact congrArg splitChars (String.ofList_injective heq)
  have hparts := List.map_injective_iff.mpr (fun _ _ => String.toList_inj.mp) hlists
  obtain ⟨hchain, hname⟩ := List.append_inj' hparts rfl
  have hid : key.identity = key'.identity := by
    have hfollow := h.follow
    rw [hchain, h'.follow] at hfollow
    exact (Except.ok.inj hfollow).symm
  obtain ⟨identity, name, chain⟩ := key
  obtain ⟨identity', name', chain'⟩ := key'
  cases hchain
  cases List.singleton_inj.mp hname
  cases hid
  rfl

end Qualified

end Astreum
