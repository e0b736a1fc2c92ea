import Astreum.Loader
import Mathlib.Data.Set.Finite.Lattice
import Mathlib.Order.WellFoundedSet

namespace Astreum

section Ending

variable {α : Type}

/-- A reader of tokens that ends, and does not give back more than it got less one. -/
structure Consumes (tokens : List String) (r : Py (α × List String)) : Prop where
  ends : r ≠ .error .outOfFuel
  shorter : ∀ a rest, r = .ok (a, rest) → rest.length < tokens.length

theorem Consumes.of_error {tokens : List String} {e : PyError} (h : e ≠ .outOfFuel) :
    Consumes tokens (.error e : Py (α × List String)) :=
  ⟨fun h' => h (Except.error.inj h'), fun _ _ h => nomatch h⟩

theorem Consumes.of_ok {tokens rest : List String} {a : α} (h : rest.length < tokens.length) :
    Consumes tokens (.ok (a, rest)) := by
  refine ⟨fun h => (nomatch h), fun a' rest' heq => ?_⟩
  cases heq
  exact h

theorem parseAtom_ne_outOfFuel (tok : String) : parseAtom tok ≠ .error .outOfFuel := by
  intro h
  rw [parseAtom] at h
  simp only at h
  have hfloat : ∀ x, floatResult "fp64" x ≠ .error .outOfFuel := fun x h => nomatch h
  split at h
  · cases h
  split at h
  · split at h
    · cases h
    · split at h <;> cases h
  · cases h
  · split at h
    · split at h <;> cases h
    · split at h
      · cases h
      · split at h
        · exact hfloat _ h
        · cases h

theorem consumes_parse (n : Nat) :
    (∀ tokens : List String, 2 * tokens.length < n → Consumes tokens (parseOne n tokens)) ∧
      ∀ (items : List Expr) (tokens : List String), 2 * tokens.length + 1 < n →
        Consumes tokens (parseItems n items tokens) := by
  induction n with
  | zero =>
    exact ⟨fun _ h => absurd h (Nat.not_lt_zero _), fun _ _ h => absurd h (Nat.not_lt_zero _)⟩
  | succ n ih =>
    refine ⟨fun tokens hn => ?_, fun items tokens hn => ?_⟩
    · rcases tokens with - | ⟨tok, toks⟩
      · exact .of_error (by decide)
      rw [List.length_cons] at hn
      rw [parseOne]
      split
      · have hitems := ih.2 [] toks (by omega)
        refine ⟨hitems.ends, fun e rest h => ?_⟩
        have hlt := hitems.shorter e rest h
        rw [List.length_cons]
        omega
      split
      · exact .of_error (by decide)
      · rcases hatom : parseAtom tok with err | e
        · exact .of_error fun h => parseAtom_ne_outOfFuel tok (h ▸ hatom)
        · exact .of_ok (Nat.lt_succ_self _)
    · rcases tokens with - | ⟨tok, toks⟩
      · exact .of_error (by decide)
      rw [List.length_cons] at hn
      rw [parseItems]
      split
      · exact .of_ok (Nat.lt_succ_self _)
      split
      · split
        · exact .of_error (by decide)
        have htail := ih.1 toks (by omega)
        rcases hone : parseOne n toks with err | ⟨tail, rest⟩
        · rw [hone] at htail
          exact .of_error fun h => htail.ends (h ▸ rfl)
        · have hlt := htail.shorter tail rest hone
          simp only [bind, Except.bind]
          split
          · rw [List.length_cons] at hlt
            exact .of_ok (by rw [List.length_cons]; omega)
          · exact .of_error (by decide)
      · have hitem := ih.1 (tok :: toks) (by rw [List.length_cons]; omega)
        rcases hone : parseOne n (tok :: toks) with err | ⟨item, rest⟩
        · rw [hone] at hitem
          exact .of_error fun h => hitem.ends (h ▸ rfl)
        · have hlt := hitem.shorter item rest hone
          rw [List.length_cons] at hlt
          have hrest := ih.2 (item :: items) rest (by omega)
          refine ⟨hrest.ends, fun e rest' h => ?_⟩
          have hlt' := hrest.shorter e rest' h
          rw [List.length_cons]
          omega

variable (blake3 : Bytes → Bytes) (resolveIdentity : String → String → String)
  (files : String → Option String)

theorem linkToList_ne_outOfFuel (e : Expr) : linkToList blake3 e ≠ .error .outOfFuel := by
  induction hsize : sizeOf e using Nat.strong_induction_on generalizing e with
  | _ n ih =>
    intro h
    rw [linkToList.eq_def] at h
    repeat' split at h
    all_goals try cases h
    rename_i e t _
    rcases hrest : linkToList blake3 t with err | rest
    · rw [hrest] at h
      cases h
      exact ih (sizeOf t) (by simp at hsize; omega) t rfl hrest
    · rw [hrest] at h
      cases h

theorem exprTagLocal_ne_outOfFuel (e : Expr) : exprTagLocal blake3 e ≠ .error .outOfFuel := by
  intro h
  rw [exprTagLocal] at h
  repeat' split at h
  all_goals cases h

theorem pathFromExpr_ne_outOfFuel (e : Expr) : pathFromExpr blake3 e ≠ .error .outOfFuel := by
  intro h
  rw [pathFromExpr] at h
  rcases htag : exprTagLocal blake3 e with err | tag
  · rw [htag] at h
    cases h
    exact exprTagLocal_ne_outOfFuel blake3 e htag
  rw [htag] at h
  simp only [bind, Except.bind] at h
  split at h
  · cases h
  · rw [utf8Decode] at h
    split at h <;> cases h
  · split at h <;> cases h

theorem except_bind_ne_outOfFuel {β γ : Type} {x : Py β} {f : β → Py γ}
    (hx : x ≠ .error .outOfFuel) (hf : ∀ b, f b ≠ .error .outOfFuel) :
    (x >>= f) ≠ .error .outOfFuel := by
  rcases x with e | b
  · exact fun h => hx (congrArg _ (Except.error.inj h))
  · exact hf b

theorem readForm_ne_outOfFuel (identity : String) (m : ModuleFile) (e : Expr) :
    readForm blake3 resolveIdentity identity m e ≠ .error .outOfFuel := by
  have htag := exprTagLocal_ne_outOfFuel blake3
  rw [readForm]
  refine except_bind_ne_outOfFuel (linkToList_ne_outOfFuel blake3 e) fun elems => ?_
  split
  · rename_i first second terminator
    refine except_bind_ne_outOfFuel (htag terminator) fun tag => ?_
    split
    · exact fun h => nomatch h
    split
    · refine except_bind_ne_outOfFuel (htag second) fun tag => ?_
      repeat' split
      all_goals exact fun h => nomatch h
    split
    · refine except_bind_ne_outOfFuel (htag first) fun tag => ?_
      split
      · exact fun h => nomatch h
      · refine except_bind_ne_outOfFuel (pathFromExpr_ne_outOfFuel blake3 second) fun path => ?_
        split <;> exact fun h => nomatch h
    · exact fun h => nomatch h
  · exact fun h => nomatch h

theorem readForms_ne_outOfFuel (identity : String) (n : Nat) (tokens : List String)
    (m : ModuleFile) (hn : tokens.length ≤ n) :
    readForms blake3 resolveIdentity identity n tokens m ≠ .error .outOfFuel := by
  induction n generalizing tokens m with
  | zero =>
    rw [List.eq_nil_of_length_eq_zero (Nat.le_zero.mp hn)]
    exact fun h => nomatch h
  | succ n ih =>
    rcases tokens with - | ⟨tok, toks⟩
    · exact fun h => nomatch h
    have hstep : readForms blake3 resolveIdentity identity (n + 1) (tok :: toks) m =
        (parseOne (2 * (tok :: toks).length + 2) (tok :: toks) >>= fun r =>
          readForm blake3 resolveIdentity identity m r.1 >>=
            readForms blake3 resolveIdentity identity n r.2) := rfl
    rw [hstep]
    have hone := (consumes_parse (2 * (tok :: toks).length + 2)).1 (tok :: toks) (by omega)
    rcases hparse : parseOne (2 * (tok :: toks).length + 2) (tok :: toks) with err | ⟨e, rest⟩
    · rw [hparse] at hone
      exact fun h => hone.ends (congrArg _ (Except.error.inj h))
    · have hlt := hone.shorter e rest hparse
      have hrest : rest.length ≤ n := by omega
      have hforms := except_bind_ne_outOfFuel
        (readForm_ne_outOfFuel blake3 resolveIdentity identity m e) fun m' => ih rest m' hrest
      exact hforms

theorem parseModule_ne_outOfFuel (identity : String) :
    parseModule blake3 resolveIdentity files identity ≠ .error .outOfFuel := by
  rw [parseModule]
  split
  · exact fun h => nomatch h
  · refine except_bind_ne_outOfFuel (readForms_ne_outOfFuel blake3 resolveIdentity identity _ _ _
      (Nat.le_refl _)) fun m => ?_
    split <;> exact fun h => nomatch h

end Ending

section Targets

open DepthFirst

variable {blake3 : Bytes → Bytes} {modules : String → Py ModuleFile} {file : ModuleFile}
  {key target start : DefKey} {script : String} {names : List String} {steps : List (Py DefKey)}

theorem mem_stepsOf {err : Option PyError} (h : .ok target ∈ stepsOf modules file key names err) :
    ∃ s ∈ names, symbolTarget modules file key s = .ok (some target) := by
  induction names with
  | nil =>
    cases err with
    | none => cases h
    | some e => exact nomatch List.mem_singleton.mp h
  | cons s names ih =>
    rw [stepsOf] at h
    split at h
    · obtain ⟨s', hs', htarget⟩ := ih h
      exact ⟨s', List.mem_cons_of_mem _ hs', htarget⟩
    · rename_i found hfound
      rcases List.mem_cons.mp h with heq | h
      · rw [← Except.ok.inj heq] at hfound
        exact ⟨s, List.mem_cons_self, hfound⟩
      · obtain ⟨s', hs', htarget⟩ := ih h
        exact ⟨s', List.mem_cons_of_mem _ hs', htarget⟩
    · rcases List.mem_cons.mp h with heq | h
      · cases heq
      · obtain ⟨s', hs', htarget⟩ := ih h
        exact ⟨s', List.mem_cons_of_mem _ hs', htarget⟩

/-- Where no step fails, the walk is not cut short and every symbol has been looked up. -/
theorem stepsOf_all_ok {err : Option PyError}
    (h : ∀ step ∈ stepsOf modules file key names err, ∃ target, step = .ok target) :
    err = none ∧ ∀ s ∈ names, ∃ found, symbolTarget modules file key s = .ok found ∧
      ∀ target, found = some target → .ok target ∈ stepsOf modules file key names err := by
  induction names with
  | nil =>
    cases err with
    | none => exact ⟨rfl, fun _ h => absurd h List.not_mem_nil⟩
    | some e =>
      obtain ⟨target, htarget⟩ := h (.error e) List.mem_cons_self
      cases htarget
  | cons s names ih =>
    rw [stepsOf] at h ⊢
    rcases hs : symbolTarget modules file key s with e | - | found
    · rw [hs] at h
      obtain ⟨target, htarget⟩ := h (.error e) List.mem_cons_self
      cases htarget
    · rw [hs] at h
      obtain ⟨herr, hall⟩ := ih h
      refine ⟨herr, fun s' hs' => ?_⟩
      rcases List.mem_cons.mp hs' with rfl | hs'
      · exact ⟨none, hs, fun _ h => by cases h⟩
      · exact hall s' hs'
    · rw [hs] at h
      obtain ⟨herr, hall⟩ := ih fun step hstep => h step (List.mem_cons_of_mem _ hstep)
      refine ⟨herr, fun s' hs' => ?_⟩
      rcases List.mem_cons.mp hs' with rfl | hs'
      · refine ⟨some found, hs, fun target htarget => ?_⟩
        cases htarget
        exact List.mem_cons_self
      · obtain ⟨found', hfound', hmem⟩ := hall s' hs'
        exact ⟨found', hfound', fun target h => List.mem_cons_of_mem _ (hmem target h)⟩

theorem references_eq_ok (h : references blake3 modules key = .ok steps) :
    ∃ file body, modules key.identity = .ok file ∧ file.defs.get? key.name = some body ∧
      steps = stepsOf modules file key (body.walked blake3).1 (body.walked blake3).2 := by
  rw [references] at h
  obtain ⟨file, hfile, h⟩ := except_bind_eq_ok.mp h
  split at h
  · cases h
  · rename_i body hbody
    exact ⟨file, body, hfile, hbody, (Except.ok.inj h).symm⟩

theorem bodyOf_of_defs {body : Expr} (hfile : modules key.identity = .ok file)
    (hbody : file.defs.get? key.name = some body) : bodyOf modules key = .ok body := by
  rw [bodyOf, hfile]
  simp only [bind, Except.bind, hbody]
  rfl

theorem tidy_of_reaches {name : String} (hstart : startKey modules script name = .ok start)
    (h : Reaches (references blake3 modules) start key) : key.Tidy modules script := by
  induction h with
  | refl => exact tidy_startKey hstart
  | step _ hrefs hmem ih =>
    obtain ⟨file, body, hfile, -, rfl⟩ := references_eq_ok hrefs
    obtain ⟨s, -, hs⟩ := mem_stepsOf hmem
    exact tidy_symbolTarget ih hfile hs

theorem joinChars_splitChars (cs : List Char) : joinChars (splitChars cs) = cs := by
  induction cs with
  | nil => rfl
  | cons ch cs ih =>
    rw [splitChars]
    rcases hparts : splitChars cs with - | ⟨part, parts⟩
    · cases cs with
      | nil => cases hparts
      | cons ch' cs =>
        rw [splitChars] at hparts
        repeat' split at hparts
        all_goals cases hparts
    · rw [hparts] at ih
      split
      · rename_i hdot
        rw [joinChars, ih, hdot, List.nil_append]
        exact fun h => by cases h
      · cases parts with
        | nil =>
          rw [joinChars] at ih ⊢
          rw [ih]
        | cons next parts =>
          rw [joinChars] at ih ⊢
          · rw [← ih]
            rfl
          · exact fun h => by cases h
          · exact fun h => by cases h

theorem joinChars_append {parts parts' : List (List Char)} (h : parts' ≠ []) :
    joinChars (parts ++ parts') = joinChars (parts ++ [joinChars parts']) := by
  induction parts with
  | nil => rfl
  | cons part parts ih =>
    have hne : parts ++ parts' ≠ [] := fun h' => h (List.append_eq_nil_iff.mp h').2
    have hne' : parts ++ [joinChars parts'] ≠ [] := by simp
    have hcons : ∀ rest : List (List Char), rest ≠ [] →
        joinChars (part :: rest) = part ++ '.' :: joinChars rest := by
      intro rest hrest
      cases rest with
      | nil => exact absurd rfl hrest
      | cons => rfl
    rw [List.cons_append, List.cons_append, hcons _ hne, hcons _ hne', ih]

theorem parts_locate {parts chain : List String} {m : String}
    (h : locate modules m parts chain = .ok key) : key.chain ++ [key.name] = chain ++ parts := by
  induction parts generalizing m chain with
  | nil => cases h
  | cons first rest ih =>
    cases rest with
    | nil =>
      rw [locate] at h
      obtain ⟨file, -, h⟩ := except_bind_eq_ok.mp h
      cases h
      rfl
    | cons next rest =>
      rw [locate] at h
      · obtain ⟨file, -, h⟩ := except_bind_eq_ok.mp h
        split at h
        · cases h
        · rw [ih h, List.append_assoc]
          rfl
      · exact fun h' => by cases h'

/-- What a symbol refers to is bound under the symbol's own text after the prefixes. -/
theorem qualified_symbolTarget {sym : String}
    (h : symbolTarget modules file key sym = .ok (some target)) :
    target.qualified = { key with name := sym }.qualified := by
  have hjoin : joinChars ((splitDots sym).map String.toList) = sym.toList := by
    have hmap : (splitDots sym).map String.toList = splitChars sym.toList := by
      rw [splitDots, List.map_map]
      refine (List.map_congr_left fun cs _ => ?_).trans (List.map_id _)
      exact String.toList_ofList
    rw [hmap, joinChars_splitChars]
  rcases symbolTarget_eq_some h with ⟨first, rest, next, hparts, -, hlocate⟩ | ⟨-, rfl⟩
  · have hall := parts_locate hlocate
    rw [List.append_assoc, List.singleton_append, ← hparts] at hall
    have hne : (splitDots sym).map String.toList ≠ [] := by
      rw [hparts]
      exact List.cons_ne_nil _ _
    rw [DefKey.qualified, DefKey.qualified, hall, List.map_append, List.map_append,
      joinChars_append hne, hjoin]
    rfl
  · rfl

end Targets

section Assembled

open DepthFirst

variable {blake3 : Bytes → Bytes} {modules : String → Py ModuleFile} {start key : DefKey}
  {script target : String} {visited : List DefKey} {env : Dict String Expr}

/-- The environment binds each visited definition under its own name, and nothing else. -/
theorem get?_boundBy (htidy : ∀ key ∈ visited, key.Tidy modules script)
    (hbody : ∀ key ∈ visited, ∃ body, bodyOf modules key = .ok body) (name : String) (body : Expr) :
    (boundBy modules visited).get? name = some body ↔
      ∃ key ∈ visited, key.qualified = name ∧ bodyOf modules key = .ok body := by
  induction visited using List.reverseRecOn with
  | nil => exact ⟨fun h => (nomatch h), fun ⟨_, h, _⟩ => absurd h List.not_mem_nil⟩
  | append_singleton visited key ih =>
    have hlast : key ∈ visited ++ [key] := List.mem_append_right _ (List.mem_singleton_self _)
    obtain ⟨body', hbody'⟩ := hbody key hlast
    rw [boundBy_append modules visited key hbody', Dict.get?_insert]
    by_cases hname : key.qualified = name
    · rw [if_pos hname]
      constructor
      · intro h
        cases h
        exact ⟨key, hlast, hname, hbody'⟩
      · rintro ⟨key', hmem, hname', hbody''⟩
        have hkey := (htidy key' hmem).eq_of_qualified (htidy key hlast) (hname'.trans hname.symm)
        rw [hkey, hbody'] at hbody''
        rw [Except.ok.inj hbody'']
    · rw [if_neg hname, ih (fun k h => htidy k (List.mem_append_left _ h))
        fun k h => hbody k (List.mem_append_left _ h)]
      refine exists_congr fun key' => and_congr_left fun ⟨hname', _⟩ => ?_
      rw [List.mem_append, List.mem_singleton]
      refine ⟨.inl, fun h => h.resolve_right fun hkey => ?_⟩
      rw [← hname', hkey] at hname
      exact hname rfl

/-- What a visit of the references makes of the environment. -/
def environmentOf (modules : String → Py ModuleFile) :
    Option (Py (List DefKey)) → Py (Dict String Expr)
  | none => .error .outOfFuel
  | some (.error e) => .error e
  | some (.ok visited) => .ok (boundBy modules visited)

theorem assembleEnv_eq (hstart : startKey modules script target = .ok start) (n : Nat) :
    assembleEnv blake3 modules n script target =
      environmentOf modules (visit (references blake3 modules) n start []) := by
  have hfollows := follows_resolveDef blake3 modules n start []
  have hempty : loadingOf modules [] = ⟨Dict.empty, []⟩ := rfl
  rw [hempty] at hfollows
  rw [assembleEnv, hstart]
  simp only [bind, Except.bind]
  rcases hvisit : visit (references blake3 modules) n start [] with - | e | visited
  all_goals rw [hvisit] at hfollows
  · have hfst : (resolveDef blake3 modules n start ⟨Dict.empty, []⟩).1 = .error .outOfFuel :=
      hfollows
    rw [Eff.eq_of_fst hfst]
    rfl
  · have hfst : (resolveDef blake3 modules n start ⟨Dict.empty, []⟩).1 = .error e := hfollows
    rw [Eff.eq_of_fst hfst]
    rfl
  · have hran : resolveDef blake3 modules n start ⟨Dict.empty, []⟩ =
        (.ok (), loadingOf modules visited) := hfollows
    rw [hran]
    rfl

variable (blake3 modules) in
/-- From some bound on the recursion on, the result is the same. -/
def Terminates (script target : String) : Prop :=
  ∃ n result, result ≠ .error .outOfFuel ∧
    ∀ m, n ≤ m → assembleEnv blake3 modules m script target = result

variable (blake3 modules start) in
/-- The environment of all the definitions that the first one leads to: what the symbols of their
bodies refer to is bound under the prefixes of the definition that refers to it. -/
structure Assembled (env : Dict String Expr) : Prop where
  loaded : ∀ key, Reaches (references blake3 modules) start key → ∃ file body,
    modules key.identity = .ok file ∧ file.defs.get? key.name = some body ∧
    env.get? key.qualified = some body ∧ (body.walked blake3).2 = none ∧
    ∀ s ∈ (body.walked blake3).1, ∃ found, symbolTarget modules file key s = .ok found ∧
      ∀ target, found = some target → ∃ body', bodyOf modules target = .ok body' ∧
        env.get? { key with name := s }.qualified = some body'
  once : ∀ name body, env.get? name = some body →
    ∃! key, Reaches (references blake3 modules) start key ∧ key.qualified = name ∧
      bodyOf modules key = .ok body

theorem assembled_of_visit {n : Nat} (hstart : startKey modules script target = .ok start)
    (h : visit (references blake3 modules) n start [] = some (.ok visited)) :
    Assembled blake3 modules start (boundBy modules visited) := by
  have hreach : ∀ key, key ∈ visited ↔ Reaches (references blake3 modules) start key :=
    fun key => mem_visit_iff h
  have htidy : ∀ key ∈ visited, key.Tidy modules script :=
    fun key hkey => tidy_of_reaches hstart ((hreach key).mp hkey)
  have hclosed := fun key hkey => (visit_grows h).1.closed key hkey List.not_mem_nil
  have hbody : ∀ key ∈ visited, ∃ body, bodyOf modules key = .ok body := by
    intro key hkey
    obtain ⟨steps, hsteps, -⟩ := hclosed key hkey
    obtain ⟨file, body, hfile, hdef, -⟩ := references_eq_ok hsteps
    exact ⟨body, bodyOf_of_defs hfile hdef⟩
  have hget := get?_boundBy htidy hbody
  constructor
  · intro key hkey
    obtain ⟨steps, hsteps, hall⟩ := hclosed key ((hreach key).mpr hkey)
    obtain ⟨file, body, hfile, hdef, rfl⟩ := references_eq_ok hsteps
    have hbound : (boundBy modules visited).get? key.qualified = some body :=
      (hget _ _).mpr ⟨key, (hreach key).mpr hkey, rfl, bodyOf_of_defs hfile hdef⟩
    obtain ⟨hwalked, hsymbols⟩ := stepsOf_all_ok fun step hstep => by
      obtain ⟨next, -, hnext⟩ := hall step hstep
      exact ⟨next, hnext⟩
    refine ⟨file, body, hfile, hdef, hbound, hwalked, fun s hs => ?_⟩
    obtain ⟨found, hfound, hmem⟩ := hsymbols s hs
    refine ⟨found, hfound, fun next hnext => ?_⟩
    rw [hnext] at hfound
    have hvisited : next ∈ visited := (hreach next).mpr (.step hkey hsteps (hmem next hnext))
    obtain ⟨body', hbody'⟩ := hbody next hvisited
    refine ⟨body', hbody', ?_⟩
    rw [← qualified_symbolTarget hfound]
    exact (hget _ _).mpr ⟨next, hvisited, rfl, hbody'⟩
  · intro name body hname
    obtain ⟨key, hkey, hqualified, hbodyOf⟩ := (hget _ _).mp hname
    refine ⟨key, ⟨(hreach key).mp hkey, hqualified, hbodyOf⟩, ?_⟩
    rintro key' ⟨hkey', hqualified', -⟩
    exact (tidy_of_reaches hstart hkey').eq_of_qualified (htidy key hkey)
      (hqualified'.trans hqualified.symm)

end Assembled

section Acyclic

open DepthFirst

variable {blake3 : Bytes → Bytes} {modules : String → Py ModuleFile} {start : DefKey}
  {script target : String}

variable (modules) in
/-- A module imports another. -/
def Imports (m m' : String) : Prop :=
  ∃ file prefix_, modules m = .ok file ∧ file.imports.get? prefix_ = some m'

theorem follow_finite_of_imports {m : String}
    (h : ∀ m', Imports modules m m' → {chain | ∃ m'', follow modules m' chain = .ok m''}.Finite) :
    {chain | ∃ m'', follow modules m chain = .ok m''}.Finite := by
  rcases hfile : modules m with e | file
  · refine (Set.finite_singleton []).subset fun chain hchain => ?_
    obtain ⟨m'', hfollow⟩ := hchain
    cases chain with
    | nil => rfl
    | cons first rest =>
      rw [follow, hfile] at hfollow
      cases hfollow
  have hnext : (⋃ pair ∈ {pair | pair ∈ file.imports.pairs},
      (pair.1 :: ·) '' {chain | ∃ m'', follow modules pair.2 chain = .ok m''}).Finite := by
    refine Set.Finite.biUnion (List.finite_toSet _) fun pair hpair => Set.Finite.image _ ?_
    exact h pair.2 ⟨file, pair.1, hfile, Dict.get?_eq_some.mpr hpair⟩
  refine ((Set.finite_singleton []).union hnext).subset fun chain hchain => ?_
  obtain ⟨m'', hfollow⟩ := hchain
  cases chain with
  | nil => exact .inl rfl
  | cons first rest =>
    rw [follow, hfile] at hfollow
    simp only [bind, Except.bind] at hfollow
    split at hfollow
    · cases hfollow
    · rename_i next himport
      refine .inr (Set.mem_biUnion (Dict.get?_eq_some.mp himport) ?_)
      exact ⟨rest, ⟨m'', hfollow⟩, rfl⟩

/-- Without a cycle of imports there are finitely many chains of prefixes. -/
theorem follow_finite {present : Set String} (hpresent : present.Finite)
    (hfiles : ∀ m file, modules m = .ok file → m ∈ present)
    (hacyclic : ∀ m, ¬ Relation.TransGen (Imports modules) m m) (m : String) :
    {chain | ∃ m', follow modules m chain = .ok m'}.Finite := by
  have hstrict : IsStrictOrder String (Function.swap (Relation.TransGen (Imports modules))) :=
    { irrefl := hacyclic, trans := fun _ _ _ h h' => h'.trans h }
  by_cases hm : m ∈ present
  · have hwf := hpresent.wellFoundedOn (r := Function.swap (Relation.TransGen (Imports modules)))
    refine hwf.induction hm (P := fun m => {chain | ∃ m', follow modules m chain = .ok m'}.Finite)
      fun m _ ih => follow_finite_of_imports fun m' himports => ?_
    by_cases hm' : m' ∈ present
    · exact ih m' hm' (.single himports)
    · exact follow_finite_of_imports fun m'' ⟨file, _, hfile, _⟩ =>
        absurd (hfiles m' file hfile) hm'
  · exact follow_finite_of_imports fun m' ⟨file, _, hfile, _⟩ => absurd (hfiles m file hfile) hm

theorem reaches_finite (hstart : startKey modules script target = .ok start)
    (hchains : {chain | ∃ m, follow modules script chain = .ok m}.Finite) :
    {key | Reaches (references blake3 modules) start key}.Finite := by
  have hloaded : (⋃ chain ∈ {chain | ∃ m, follow modules script chain = .ok m},
      {key : DefKey | key.Tidy modules script ∧ key.chain = chain ∧
        ∃ body, bodyOf modules key = .ok body}).Finite := by
    refine hchains.biUnion fun chain hfollows => ?_
    obtain ⟨m, hm⟩ := hfollows
    rcases hfile : modules m with e | file
    · refine Set.finite_empty.subset fun key hkey => ?_
      obtain ⟨htidy, hchain, body, hbody⟩ := hkey
      have hid := htidy.follow
      rw [hchain, hm] at hid
      rw [bodyOf, ← Except.ok.inj hid, hfile] at hbody
      cases hbody
    · refine ((List.finite_toSet file.defs.pairs).image fun pair => DefKey.mk m pair.1 chain).subset
        fun key hkey => ?_
      obtain ⟨htidy, hchain, body, hbody⟩ := hkey
      have hid := htidy.follow
      rw [hchain, hm] at hid
      have hm' := Except.ok.inj hid
      rw [bodyOf, ← hm', hfile] at hbody
      simp only [bind, Except.bind] at hbody
      split at hbody
      · cases hbody
      · rename_i body' hdef
        refine ⟨(key.name, body'), Dict.get?_eq_some.mp hdef, ?_⟩
        obtain ⟨identity, name, chain'⟩ := key
        cases hchain
        cases hm'
        rfl
  have hsteps := hloaded.biUnion (t := fun key => {next | ∃ steps,
      references blake3 modules key = .ok steps ∧ .ok next ∈ steps}) fun key _ => by
    rcases hrefs : references blake3 modules key with e | steps
    · refine Set.finite_empty.subset fun next hnext => ?_
      obtain ⟨_, h, -⟩ := hnext
      cases h
    · refine ((List.finite_toSet steps).preimage (f := Except.ok) fun _ _ _ _ h =>
        Except.ok.inj h).subset fun next hnext => ?_
      obtain ⟨steps', h, hnext⟩ := hnext
      cases h
      exact hnext
  refine ((Set.finite_singleton start).union hsteps).subset fun key hkey => ?_
  rcases hkey with - | ⟨hprev, hrefs, hmem⟩
  · exact .inl rfl
  · rename_i prev steps
    refine .inr (Set.mem_biUnion ?_ ⟨steps, hrefs, hmem⟩)
    have htidy := tidy_of_reaches hstart hprev
    obtain ⟨file, body, hfile, hdef, -⟩ := references_eq_ok hrefs
    exact Set.mem_biUnion ⟨_, htidy.follow⟩ ⟨htidy, rfl, body, bodyOf_of_defs hfile hdef⟩

end Acyclic

section Termination

open DepthFirst

variable (blake3 : Bytes → Bytes) (resolveIdentity : String → String → String)
  (files : String → Option String)

theorem locate_ne_outOfFuel {modules : String → Py ModuleFile}
    (h : ∀ m, modules m ≠ .error .outOfFuel) (parts : List String) (m : String)
    (chain : List String) : locate modules m parts chain ≠ .error .outOfFuel := by
  fun_induction locate modules m parts chain with
  | case1 => exact fun h => nomatch h
  | case2 m name chain => exact except_bind_ne_outOfFuel (h m) fun _ h => nomatch h
  | case3 m chain first rest hrest ih =>
    refine except_bind_ne_outOfFuel (h m) fun file => ?_
    split
    · exact fun h => nomatch h
    · exact ih _

mutual

theorem Expr.walked_ne_outOfFuel (e : Expr) : (e.walked blake3).2 ≠ some .outOfFuel := by
  cases e with
  | link v h t =>
    rw [Expr.walked]
    rcases htag : exprTagLocal blake3 (.link v h t) with err | tag
    · intro herr
      exact exprTagLocal_ne_outOfFuel blake3 _ (htag.trans (congrArg _ (Option.some.inj herr)))
    by_cases hsymbol : tag = "symbol"
    · simp only [hsymbol, if_true]
      cases v <;> exact fun h => nomatch h
    · simp only [hsymbol, if_false]
      split
      · have hh := Child.walked_ne_outOfFuel h
        have ht := Child.walked_ne_outOfFuel t
        rw [thenWalked]
        split
        · exact hh
        · exact ht
      · exact fun h => nomatch h
  | _ => exact fun h => nomatch h

theorem Child.walked_ne_outOfFuel (ch : Child) : (ch.walked blake3).2 ≠ some .outOfFuel := by
  cases ch with
  | loaded e => exact Expr.walked_ne_outOfFuel e
  | _ => exact fun h => nomatch h

end

theorem symbolTarget_ne_outOfFuel {modules : String → Py ModuleFile}
    (h : ∀ m, modules m ≠ .error .outOfFuel) (file : ModuleFile) (key : DefKey) (sym : String) :
    symbolTarget modules file key sym ≠ .error .outOfFuel := by
  rw [symbolTarget]
  split
  · split
    · split
      · intro hmap
        rename_i first rest _ _ next himport
        rcases hlocate : locate modules next rest (key.chain ++ [first]) with e | found
        · rw [hlocate] at hmap
          exact locate_ne_outOfFuel h _ _ _ (hlocate.trans (congrArg _ (Except.error.inj hmap)))
        · rw [hlocate] at hmap
          cases hmap
      · exact fun h => by cases h
    · exact fun h => by cases h
  · split <;> exact fun h => by cases h

theorem outOfFuel_not_mem_stepsOf {modules : String → Py ModuleFile}
    (h : ∀ m, modules m ≠ .error .outOfFuel) (file : ModuleFile) (key : DefKey)
    (names : List String) {err : Option PyError} (herr : err ≠ some .outOfFuel) :
    .error .outOfFuel ∉ stepsOf modules file key names err := by
  induction names with
  | nil =>
    cases err with
    | none => exact List.not_mem_nil
    | some e =>
      intro hmem
      exact herr (congrArg _ (Except.error.inj (List.mem_singleton.mp hmem)).symm)
  | cons s names ih =>
    rw [stepsOf]
    split
    · exact ih
    · intro hmem
      rcases List.mem_cons.mp hmem with heq | hmem
      · cases heq
      · exact ih hmem
    · rename_i e hs
      intro hmem
      rcases List.mem_cons.mp hmem with heq | hmem
      · exact symbolTarget_ne_outOfFuel h file key s
          (hs.trans (congrArg _ (Except.error.inj heq).symm))
      · exact ih hmem

theorem visit_ne_outOfFuel {modules : String → Py ModuleFile}
    (h : ∀ m, modules m ≠ .error .outOfFuel) (n : Nat) (key : DefKey) (visited : List DefKey) :
    visit (references blake3 modules) n key visited ≠ some (.error .outOfFuel) := by
  intro hrun
  obtain ⟨key', -, hfails | ⟨steps, hsteps, hmem⟩⟩ := visit_error hrun
  · rw [references] at hfails
    refine except_bind_ne_outOfFuel (h key'.identity) (fun file => ?_) hfails
    split <;> exact fun h => by cases h
  · obtain ⟨file, body, -, -, rfl⟩ := references_eq_ok hsteps
    exact outOfFuel_not_mem_stepsOf h file key' _ (Expr.walked_ne_outOfFuel blake3 body) hmem

/-- `assemble_env` ends where the visit of the references does. -/
theorem terminates_iff_visit {modules : String → Py ModuleFile}
    (h : ∀ m, modules m ≠ .error .outOfFuel)
    {script target : String} {start : DefKey}
    (hstart : startKey modules script target = .ok start) :
    Terminates blake3 modules script target ↔
      ∃ n r, visit (references blake3 modules) n start [] = some r := by
  constructor
  · rintro ⟨n, result, hresult, hends⟩
    have hn := hends n (Nat.le_refl n)
    rw [assembleEnv_eq hstart] at hn
    rcases hvisit : visit (references blake3 modules) n start [] with - | r
    · rw [hvisit] at hn
      exact absurd hn.symm hresult
    · exact ⟨n, r, hvisit⟩
  · rintro ⟨n, r, hvisit⟩
    refine ⟨n, environmentOf modules (some r), ?_, fun m hm => ?_⟩
    · rcases r with e | visited
      · intro he
        exact visit_ne_outOfFuel blake3 h n start []
          (hvisit.trans (congrArg (some ∘ Except.error) (Except.error.inj he)))
      · exact fun h => nomatch h
    · rw [assembleEnv_eq hstart, visit_mono hvisit hm]

/-- `assemble_env` ends where the imports do not go round in a cycle, and in general where finitely
many definitions can be reached. -/
theorem assembled_env_closed (blake3 : Bytes → Bytes) (resolveIdentity : String → String → String)
    (files : String → Option String) (script target : String) :
    let modules := parseModule blake3 resolveIdentity files
    ({m | files m ≠ none}.Finite → (∀ m, ¬ Relation.TransGen (Imports modules) m m) →
      Terminates blake3 modules script target) ∧
    ∀ start, startKey modules script target = .ok start →
      ({key | Reaches (references blake3 modules) start key}.Finite →
        Terminates blake3 modules script target) ∧
      ((∀ key, Reaches (references blake3 modules) start key →
          ∃ steps, references blake3 modules key = .ok steps ∧
            ∀ step ∈ steps, ∃ next, step = .ok next) →
        (Terminates blake3 modules script target ↔
          {key | Reaches (references blake3 modules) start key}.Finite)) ∧
      ∀ n env, assembleEnv blake3 modules n script target = .ok env →
        Assembled blake3 modules start env := by
  intro modules
  have hparse := parseModule_ne_outOfFuel blake3 resolveIdentity files
  have hends : ∀ start, startKey modules script target = .ok start →
      (Terminates blake3 modules script target ↔
        ∃ n r, visit (references blake3 modules) n start [] = some r) :=
    fun start hstart => terminates_iff_visit blake3 hparse hstart
  have hfinite : ∀ start, startKey modules script target = .ok start →
      {key | Reaches (references blake3 modules) start key}.Finite →
      Terminates blake3 modules script target :=
    fun start hstart hreach => (hends start hstart).mpr (visit_ends hreach)
  refine ⟨fun hfiles hacyclic => ?_, fun start hstart => ⟨hfinite start hstart, fun hok => ?_, ?_⟩⟩
  · rcases hstart : startKey modules script target with e | start
    · refine ⟨0, .error e, fun he => ?_, fun m _ => ?_⟩
      · rw [startKey] at hstart
        split at hstart
        · exact locate_ne_outOfFuel hparse _ _ _
            (hstart.trans (congrArg _ (Except.error.inj he)))
        · cases hstart
      · rw [assembleEnv, hstart]
        rfl
    · refine hfinite start hstart (reaches_finite hstart (follow_finite hfiles ?_ hacyclic script))
      intro m file hfile hnone
      have hmissing : modules m = .error .runtimeError := by
        show parseModule blake3 resolveIdentity files m = _
        rw [parseModule, hnone]
      rw [hmissing] at hfile
      cases hfile
  · rw [hends start hstart]
    exact visit_ends_iff hok
  · intro n env hrun
    rw [assembleEnv_eq hstart] at hrun
    rcases hvisit : visit (references blake3 modules) n start [] with - | e | visited
    · rw [hvisit] at hrun
      cases hrun
    · rw [hvisit] at hrun
      cases hrun
    · rw [hvisit] at hrun
      rw [← Except.ok.inj hrun]
      exact assembled_of_visit hstart hvisit

def absolutePath (path _ : String) : String := path

/-- Two modules that import a third one. -/
def diamondFiles (identity : String) : Option String :=
  lookupPair identity
    [("/a", "((b.f c.f) g def) (b /b import) (c /c import)"),
     ("/b", "((d.k) f def) (d /d import)"),
     ("/c", "((d.k) f def) (d /d import)"),
     ("/d", "(1 k def)")]

/-- How far the imports of the diamond go below a module. -/
def importDepth (m : String) : Nat :=
  if m = "/a" then 2 else if m = "/b" ∨ m = "/c" then 1 else 0

theorem mem_of_imports {modules : String → Py ModuleFile} {m m' : String}
    (pairs : List (String × String)) (h : Imports modules m m')
    (hpairs : (modules m).map (·.imports.pairs) = .ok pairs) : m' ∈ pairs.map Prod.snd := by
  obtain ⟨file, p, hfile, himport⟩ := h
  rw [hfile] at hpairs
  rw [← Except.ok.inj hpairs]
  exact List.mem_map.mpr ⟨(p, m'), Dict.get?_eq_some.mp himport, rfl⟩

theorem importDepth_lt {m m' : String}
    (h : Imports (parseModule id absolutePath diamondFiles) m m') :
    importDepth m' < importDepth m := by
  by_cases ha : m = "/a"
  · subst ha
    have hbelow : ∀ m' ∈ ["/b", "/c"], importDepth m' < importDepth "/a" := by decide
    exact hbelow m' (mem_of_imports [("b", "/b"), ("c", "/c")] h (by decide +kernel))
  by_cases hb : m = "/b"
  · subst hb
    have hbelow : ∀ m' ∈ ["/d"], importDepth m' < importDepth "/b" := by decide
    exact hbelow m' (mem_of_imports [("d", "/d")] h (by decide +kernel))
  by_cases hc : m = "/c"
  · subst hc
    have hbelow : ∀ m' ∈ ["/d"], importDepth m' < importDepth "/c" := by decide
    exact hbelow m' (mem_of_imports [("d", "/d")] h (by decide +kernel))
  by_cases hd : m = "/d"
  · subst hd
    exact absurd (mem_of_imports [] h (by decide +kernel)) List.not_mem_nil
  · obtain ⟨file, p, hfile, -⟩ := h
    have hnone : diamondFiles m = none := by
      simp only [diamondFiles, lookupPair, if_neg (Ne.symm ha), if_neg (Ne.symm hb),
        if_neg (Ne.symm hc), if_neg (Ne.symm hd)]
    rw [parseModule, hnone] at hfile
    cases hfile

theorem importDepth_lt_of_transGen {m m' : String}
    (h : Relation.TransGen (Imports (parseModule id absolutePath diamondFiles)) m m') :
    importDepth m' < importDepth m := by
  induction h with
  | single h => exact importDepth_lt h
  | tail _ h ih => exact (importDepth_lt h).trans ih

theorem diamond_env_closed :
    Terminates id (parseModule id absolutePath diamondFiles) "/a" "g" ∧
    ∃ env, assembleEnv id (parseModule id absolutePath diamondFiles) 10 "/a" "g" = .ok env ∧
      Assembled id (parseModule id absolutePath diamondFiles) ⟨"/a", "g", []⟩ env := by
  have h := assembled_env_closed id absolutePath diamondFiles "/a" "g"
  have hpresent : {m | diamondFiles m ≠ none} ⊆ {m | m ∈ ["/a", "/b", "/c", "/d"]} := by
    intro m hm
    obtain ⟨text, htext⟩ := Option.ne_none_iff_exists'.mp hm
    exact List.mem_map_of_mem (f := Prod.fst) (mem_of_lookupPair htext)
  refine ⟨h.1 ((List.finite_toSet _).subset hpresent) fun m hm => ?_, ?_⟩
  · exact absurd (importDepth_lt_of_transGen hm) (Nat.lt_irrefl _)
  · have hok : (assembleEnv id (parseModule id absolutePath diamondFiles) 10 "/a" "g").isOk =
        true := by decide +kernel
    rcases hrun : assembleEnv id (parseModule id absolutePath diamondFiles) 10 "/a" "g" with e | env
    · rw [hrun] at hok
      cases hok
    · exact ⟨env, rfl, (h.2 _ rfl).2.2 10 env hrun⟩

/-- A module that imports itself, and refers to its definition through the import. -/
def ringFiles (identity : String) : Option String :=
  lookupPair identity [("/a", "((a.g) g def) (a /a import)")]

theorem visit_ring (n : Nat) {chain : List String} {visited : List DefKey}
    (h : ∀ key ∈ visited, key.chain.length < chain.length) :
    visit (references id (parseModule id absolutePath ringFiles)) n ⟨"/a", "g", chain⟩ visited =
      none := by
  have hread : (parseModule id absolutePath ringFiles "/a").map
      (fun file => ((file.defs.get? "g").map (Expr.walked id), file.imports.get? "a")) =
        .ok (some (["a.g"], none), some "/a") := by decide +kernel
  rcases hfile : parseModule id absolutePath ringFiles "/a" with e | file
  · rw [hfile] at hread
    cases hread
  rw [hfile] at hread
  obtain ⟨hdefs, himport⟩ := Prod.mk.inj (Except.ok.inj hread)
  obtain ⟨body, hbody, hwalked⟩ := Option.map_eq_some_iff.mp hdefs
  have hrefs : ∀ chain, references id (parseModule id absolutePath ringFiles) ⟨"/a", "g", chain⟩ =
      .ok [.ok ⟨"/a", "g", chain ++ ["a"]⟩] := by
    intro chain
    have htarget : symbolTarget (parseModule id absolutePath ringFiles) file
        ⟨"/a", "g", chain⟩ "a.g" = .ok (some ⟨"/a", "g", chain ++ ["a"]⟩) := by
      have hsplit : splitDots "a.g" = ["a", "g"] := by decide +kernel
      have hdot : '.' ∈ "a.g".toList := by decide
      rw [symbolTarget, if_pos hdot, hsplit]
      simp only [himport, locate, hfile]
      rfl
    rw [references, hfile]
    simp only [bind, Except.bind, hbody, hwalked, stepsOf, htarget]
    rfl
  induction n generalizing chain visited with
  | zero => rfl
  | succ n ih =>
    have hnew : (⟨"/a", "g", chain⟩ : DefKey) ∉ visited := fun hmem => Nat.lt_irrefl _ (h _ hmem)
    rw [visit, if_neg hnew, hrefs]
    have hlonger : ∀ key ∈ visited ++ [⟨"/a", "g", chain⟩],
        key.chain.length < (chain ++ ["a"]).length := by
      intro key hkey
      rw [List.length_append, List.length_singleton]
      rcases List.mem_append.mp hkey with hkey | hkey
      · exact Nat.lt_succ_of_lt (h key hkey)
      · rw [List.mem_singleton.mp hkey]
        exact Nat.lt_succ_self _
    simp only [visitAll, ih hlonger]

/-- A module that refers to itself through its import is never loaded, and a definition is bound
once for each way that leads to it. -/
theorem import_ring_never_ends :
    (∀ n, assembleEnv id (parseModule id absolutePath ringFiles) n "/a" "g" =
      .error .outOfFuel) ∧
    ((assembleEnv id (parseModule id absolutePath diamondFiles) 10 "/a" "g").map fun env =>
      (env.get? "b.d.k", env.get? "c.d.k")) = .ok (some (int_ 1), some (int_ 1)) := by
  refine ⟨fun n => ?_, by decide +kernel⟩
  have hstart : startKey (parseModule id absolutePath ringFiles) "/a" "g" = .ok ⟨"/a", "g", []⟩ :=
    rfl
  rw [assembleEnv_eq hstart, visit_ring n fun _ h => absurd h List.not_mem_nil]
  rfl

end Termination

end Astreum
