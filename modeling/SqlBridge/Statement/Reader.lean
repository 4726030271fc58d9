import SqlBridge.CompileError
import SqlBridge.Literal
import SqlBridge.Settings.Basic

/-!
# Reading tokens

A reader takes tokens from the front of a list and yields a value or an error. What it leaves is
always a tail of what it was given: that is part of the type, and it makes loops over readers end.
A reader that fails has taken the tokens up to and including the offending one. The settings and the
caller's parameters stay the same while a statement is compiled.
-/

namespace SqlBridge

structure Reader (α : Type) where
  /-- The outcome and the tokens left. -/
  run : List Token → Except CompileError α × List Token
  /-- No token is added or changed. -/
  leaves_suffix : ∀ ts, (run ts).2 <:+ ts

namespace Reader

variable {α β σ κ : Type}

protected def pure (a : α) : Reader α :=
  ⟨fun ts => (.ok a, ts), fun _ => List.suffix_rfl⟩

/-- Go on after a reader with its value and the tokens it left. -/
def continueWith (f : α → Reader β) : Except CompileError α × List Token →
    Except CompileError β × List Token
  | (.ok a, rest) => (f a).run rest
  | (.error e, rest) => (.error e, rest)

theorem continueWith_suffix (f : α → Reader β) (r : Except CompileError α × List Token) :
    (continueWith f r).2 <:+ r.2 := by
  rcases r with ⟨_ | a, rest⟩
  · exact List.suffix_rfl
  · exact (f a).leaves_suffix rest

/-- Read with `r` and then with the reader that its value selects. -/
protected def bind (r : Reader α) (f : α → Reader β) : Reader β :=
  ⟨fun ts => continueWith f (r.run ts),
   fun ts => (continueWith_suffix f (r.run ts)).trans (r.leaves_suffix ts)⟩

instance : Monad Reader where
  pure := Reader.pure
  bind := Reader.bind

@[ext] protected theorem ext {r s : Reader α} (h : ∀ ts, r.run ts = s.run ts) : r = s := by
  cases r; cases s
  simp only [Reader.mk.injEq]
  exact funext h

@[simp] theorem run_pure (a : α) (ts : List Token) : (pure a : Reader α).run ts = (.ok a, ts) := rfl

@[simp] theorem run_bind (r : Reader α) (f : α → Reader β) (ts : List Token) :
    (r >>= f).run ts = continueWith f (r.run ts) := rfl

@[simp] theorem continueWith_ok (f : α → Reader β) (a : α) (ts : List Token) :
    continueWith f (.ok a, ts) = (f a).run ts := rfl

@[simp] theorem continueWith_error (f : α → Reader β) (e : CompileError) (ts : List Token) :
    continueWith f (.error e, ts) = (.error e, ts) := rfl

@[simp] theorem run_map (f : α → β) (r : Reader α) (ts : List Token) :
    (f <$> r).run ts = continueWith (fun a => Reader.pure (f a)) (r.run ts) := rfl

instance : LawfulMonad Reader := LawfulMonad.mk' Reader
  (by
    intro α r
    refine Reader.ext fun ts => ?_
    show continueWith (fun a => Reader.pure (id a)) (r.run ts) = r.run ts
    rcases r.run ts with ⟨_ | a, rest⟩ <;> rfl)
  (by intros; rfl)
  (by
    intro α β γ r f g
    refine Reader.ext fun ts => ?_
    simp only [run_bind]
    rcases r.run ts with ⟨_ | a, rest⟩ <;> rfl)

def fail (e : CompileError) : Reader α :=
  ⟨fun ts => (.error e, ts), fun _ => List.suffix_rfl⟩

instance : Inhabited (Reader α) := ⟨fail (.unrecognizedStatement "")⟩

def ofExcept : Except CompileError α → Reader α
  | .ok a => Reader.pure a
  | .error e => fail e

@[simp] theorem run_fail (e : CompileError) (ts : List Token) :
    (fail e : Reader α).run ts = (.error e, ts) := rfl

@[simp] theorem run_ofExcept (x : Except CompileError α) (ts : List Token) :
    (ofExcept x).run ts = (x, ts) := by
  cases x <;> rfl

def peek : Reader (Option Token) :=
  ⟨fun ts => (.ok ts.head?, ts), fun _ => List.suffix_rfl⟩

def next : Reader (Option Token) :=
  ⟨fun ts => (.ok ts.head?, ts.tail), fun ts => List.tail_suffix ts⟩

@[simp] theorem run_peek (ts : List Token) : peek.run ts = (.ok ts.head?, ts) := rfl

@[simp] theorem run_next (ts : List Token) : next.run ts = (.ok ts.head?, ts.tail) := rfl

def atKeyword (keyword : String) : Reader Bool := do
  return (← peek).any (·.isKeyword keyword)

def at? (token : Token) : Reader Bool := do
  return (← peek) = some token

/-- Take the keyword if it is next, and say whether it was. -/
def eatKeyword (keyword : String) : Reader Bool := do
  if ← atKeyword keyword then
    let _ ← next
    return true
  else return false

def eat (token : Token) : Reader Bool := do
  if ← at? token then
    let _ ← next
    return true
  else return false

@[simp] theorem run_atKeyword (keyword : String) (ts : List Token) :
    (atKeyword keyword).run ts = (.ok (ts.head?.any (·.isKeyword keyword)), ts) := rfl

@[simp] theorem run_at? (token : Token) (ts : List Token) :
    (at? token).run ts = (.ok (decide (ts.head? = some token)), ts) := rfl

/-- Eating a keyword takes the next token exactly when that is the keyword. -/
theorem run_eatKeyword (keyword : String) (ts : List Token) :
    (eatKeyword keyword).run ts =
      if ts.head?.any (·.isKeyword keyword) then (.ok true, ts.tail) else (.ok false, ts) := by
  by_cases h : ts.head?.any (·.isKeyword keyword) <;> simp [eatKeyword, h, Reader.pure]

/-- Eating a token takes the next token exactly when that is the one. -/
theorem run_eat (token : Token) (ts : List Token) :
    (eat token).run ts =
      if ts.head? = some token then (.ok true, ts.tail) else (.ok false, ts) := by
  by_cases h : ts.head? = some token <;> simp [eat, h, Reader.pure]

def expectKeyword (keyword : String) : Reader Unit := do
  unless ← eatKeyword keyword do
    fail (.malformedClause (.keywordExpected keyword (← peek)))

def expect (token : Token) : Reader Unit := do
  unless ← eat token do
    fail (.malformedClause (.tokenExpected token (← peek)))

def name : Reader String := do
  match ← next with
  | none => fail (.malformedClause .nameExpected)
  | some token =>
    match token.name? with
    | some name => return name
    | none => fail (.unexpectedToken token)

def value : Reader Token := do
  match ← next with
  | none => fail (.malformedClause .valueExpected)
  | some token => if token.isValue then return token else fail (.unexpectedToken token)

def finish : Reader Unit := do
  match ← peek with
  | none => return
  | some token => fail (.unexpectedToken token)

/-- The name that a token gives as an alias without AS: quoted text does not count. -/
def bareAlias? : Token → Option String
  | .quoted _ => none
  | token => token.name?

/-- Take an alias after a table, with AS or bare, if there is one. -/
def alias? : Reader (Option String) := do
  if ← eatKeyword "AS" then return some (← name)
  match (← peek).bind bareAlias? with
  | some name =>
    let _ ← next
    return some name
  | none => return none

/-- Run `body` as long as `again` finds that the next token goes on, which is taken. The token that
ends the loop is left. -/
def loopRun (again : Token → Except CompileError (Option κ)) (body : σ → κ → Reader σ) (s : σ) :
    List Token → Except CompileError σ × List Token
  | [] => (.ok s, [])
  | t :: rest =>
    match again t with
    | .error e => (.error e, t :: rest)
    | .ok none => (.ok s, t :: rest)
    | .ok (some k) =>
      match h : (body s k).run rest with
      | (.error e, left) => (.error e, left)
      | (.ok s', left) =>
        have : left.length < rest.length + 1 := by
          have := ((body s k).leaves_suffix rest).length_le
          rw [h] at this
          exact Nat.lt_succ_of_le this
        loopRun again body s' left
termination_by ts => ts.length

theorem loopRun_suffix (again : Token → Except CompileError (Option κ)) (body : σ → κ → Reader σ)
    (s : σ) (ts : List Token) : (loopRun again body s ts).2 <:+ ts := by
  fun_induction loopRun again body s ts with
  | case1 => exact List.suffix_rfl
  | case2 => exact List.suffix_rfl
  | case3 => exact List.suffix_rfl
  | case4 s t rest k _ e left h =>
    have := (body s k).leaves_suffix rest
    rw [h] at this
    exact this.trans (List.suffix_cons t rest)
  | case5 s t rest k _ s' left h _ ih =>
    have := (body s k).leaves_suffix rest
    rw [h] at this
    exact (ih.trans this).trans (List.suffix_cons t rest)

/-- Run `body` as long as `again` finds that the next token goes on. -/
def loop (again : Token → Except CompileError (Option κ)) (body : σ → κ → Reader σ) (s : σ) :
    Reader σ :=
  ⟨loopRun again body s, loopRun_suffix again body s⟩

@[simp] theorem run_loop_nil (again : Token → Except CompileError (Option κ))
    (body : σ → κ → Reader σ) (s : σ) : (loop again body s).run [] = (.ok s, []) := by
  simp [loop, loopRun]

/-- A loop ends, fails, or takes the next token and goes on after its body. -/
theorem run_loop_cons (again : Token → Except CompileError (Option κ)) (body : σ → κ → Reader σ)
    (s : σ) (t : Token) (rest : List Token) :
    (loop again body s).run (t :: rest) =
      match again t with
      | .error e => (.error e, t :: rest)
      | .ok none => (.ok s, t :: rest)
      | .ok (some k) => (body s k >>= loop again body).run rest := by
  simp only [loop, loopRun, run_bind]
  rcases again t with e | _ | k
  · rfl
  · rfl
  · dsimp only
    split <;> next h => rw [h]; rfl

/-- Whether a comma says that a list goes on. -/
def afterComma (t : Token) : Except CompileError (Option Unit) :=
  .ok (if t = .comma then some () else none)

/-- Run `item` once, and once more after every comma. -/
def separated (item : σ → Reader σ) (s : σ) : Reader σ := do
  loop afterComma (fun s _ => item s) (← item s)

/-- The values of `item`, read once and once more after every comma. -/
def list (item : Reader α) : Reader (List α) :=
  separated (fun before => do return before ++ [← item]) []

end Reader

/-! ### The context of a compilation -/

/-- What is given beside the statement. -/
structure Context where
  settings : Settings
  params : Params

namespace Context

def value (ctx : Context) : Reader Value := do
  Reader.ofExcept (ctx.params.valueOf (← Reader.value))

def count (ctx : Context) : Reader UInt64 := do
  Reader.ofExcept (ctx.params.countOf (← Reader.value))

end Context

end SqlBridge
